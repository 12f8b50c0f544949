import MiniKV.Sections.Worker
import MiniKV.Sections.Foreground
import MiniKV.Sections.Members

/-!
# An instance with its threads

The invariant of an open instance, in either mode: the members and the files fit,
and the worker has the Immutable it is publishing to itself. Every step keeps it,
so it holds over any interleaving of the calls with the worker. A step changes
what the database shows only by the write that it carries out.
-/

namespace MiniKV

open Lib

/-! ## Steps -/

/-- A step of an instance: it does not end with an error, and it dies only where calls may
fail. -/
def Turn {α : Type} (q : Prop) (R : Store → Prop) (m : Io α) (Q : α → Store → Prop)
    (K : Store → Prop) : Prop :=
  Prog.Triple (fun fs : Fs => Quiet q fs ∧ R fs.store) m (fun a fs => Quiet q fs ∧ Q a fs.store)
    (fun _ _ => False) (fun fs => ¬ q ∧ K fs.store)

section

variable {α β : Type} {q : Prop} {R S K : Store → Prop} {Q Q' : α → Store → Prop}
  {E : Status → Database → Store → Prop} {db : Database} {inst : Instance}

theorem Turn.pure {a : α} (h : ∀ st, R st → Q a st) : Turn q R (Pure.pure a : Io α) Q K :=
  Prog.Triple.pure (fun _ hs => ⟨hs.1, h _ hs.2⟩)

theorem Turn.bind {m : Io β} {T : β → Store → Prop} {f : β → Io α} (hm : Turn q R m T K)
    (hf : ∀ b, Turn q (T b) (f b) Q K) : Turn q R (m >>= f) Q K :=
  Prog.Triple.bind hm hf

theorem Turn.ite {c : Prop} [Decidable c] {m n : Io α} (ht : c → Turn q R m Q K)
    (hf : ¬ c → Turn q R n Q K) : Turn q R (if c then m else n) Q K :=
  Prog.Triple.ite ht hf

theorem Turn.know {φ : Prop} {m : Io α} (hφ : ∀ st, R st → φ) (h : φ → Turn q R m Q K) :
    Turn q R m Q K :=
  fun fs hs => h (hφ _ hs.2) fs hs

theorem Turn.conseq {m : Io α} (h : Turn q S m Q' K) (hr : ∀ st, R st → S st)
    (hq : ∀ a st, Q' a st → Q a st) : Turn q R m Q K :=
  Prog.Triple.conseq h (fun _ hs => ⟨hs.1, hr _ hs.2⟩) (fun _ _ hs => ⟨hs.1, hq _ _ hs.2⟩)
    (fun _ _ h => h) (fun _ h => h)

/-- A section that is run on the members of an instance. -/
theorem Acts.turn {m : Act Unit} {T : Unit → Database → Store → Prop}
    (h : Acts q K (At db R) m T E) :
    Turn q R (MiniKV.runSection db m) (fun r st => match r.1 with
      | .ok () => T () r.2 st
      | .error e => E e r.2 st) K := by
  intro fs hs
  have h' := h ⟨db, fs⟩ ⟨hs.1, rfl, hs.2⟩
  unfold MiniKV.runSection
  match hm : m ⟨db, fs⟩ with
  | (.ok (), s) =>
    rw [hm] at h'
    exact h'
  | (.error e, s) =>
    rw [hm] at h'
    exact h'
  | (.killed, s) =>
    rw [hm] at h'
    exact h'

/-- A section that ends a call. -/
theorem Acts.finishes {m : Act Unit} {T : Database → Store → Prop}
    (h : Acts q K (At inst.db R) m (fun _ => T) E) :
    Turn q R (inst.complete m) (fun r st => ∃ d, r.2 = { inst with db := d } ∧
      ((r.1 = some (.ok ()) ∧ T d st) ∨ ∃ e, r.1 = some (.error e) ∧ E e d st)) K := by
  apply Turn.bind h.turn
  intro r
  obtain ⟨result, d⟩ := r
  apply Turn.pure
  intro st hr
  cases result with
  | ok u => exact ⟨d, rfl, Or.inl ⟨rfl, hr⟩⟩
  | error e => exact ⟨d, rfl, Or.inr ⟨e, rfl, hr⟩⟩

end

/-! ## What a step does to the data -/

/-- The write that a step carries out when it gets to its end: the record that is appended and
the mode. -/
def Instance.carries (inst : Instance) : Action → Option (Record × SyncMode)
  | .call (.put key value mode) => some (⟨key, inst.db.lastSequence + 1, .value, value⟩, mode)
  | .call (.delete key mode) => some (⟨key, inst.db.lastSequence + 1, .deletion, []⟩, mode)
  | .resume position =>
    match inst.parked[position]? with
    | some (.write type key value mode) =>
      some (⟨key, inst.db.lastSequence + 1, type, value⟩, mode)
    | _ => none
  | _ => none

/-- From one scene to the next, for a step that carries out a write or none. A write that
returns OK has been committed in the step; one that has not is not visible. -/
inductive Evolves (σ : Scene) (write : Option (Record × SyncMode)) (ret : Returned) (σ' : Scene) :
    Prop
  | same (data : σ' = σ.under σ'.control) (status : σ'.control.status = σ.control.status)
      (pending : write ≠ none → ret ≠ some (.ok ()))
  | wrote {r : Record} {mode : SyncMode} (carried : write = some (r, mode))
      (data : σ' = (σ.wrote r mode).under σ'.control)
      (status : σ'.control.status = σ.control.status) (returned : ret ≠ none)
  | raised (carried : write ≠ none) (data : σ' = σ.raise.under σ'.control)
      (status : σ'.control.status.isOk = false) (failed : ∃ e, ret = some (.error e))
  | doubt {r : Record} {mode : SyncMode} (carried : write = some (r, mode))
      (data : σ' = (σ.doubt r).under σ'.control)
      (status : σ'.control.status.isOk = false) (failed : ∃ e, ret = some (.error e))

/-- What a section leaves of an open instance. -/
structure Passes (F : StorageFormat) (ρ : Regime) (σ : Scene) (write : Option (Record × SyncMode))
    (ret : Returned) (d : Database) (st : Store) : Prop where
  steady : Steady F ρ (sceneOf d st) d st
  evolves : Evolves σ write ret (sceneOf d st)
  state : d.state = σ.control.state
  running : d.backgroundWorkRunning = σ.control.backgroundWorkRunning
  stop : d.stopBackground = σ.control.stopBackground

/-- The account and the protocol have a place for the write: in background mode it is not made
beside a compaction that waits, unless the worker has failed and it is refused, and the last write
of a log is one that may be the last. -/
structure Regime.Takes (ρ : Regime) (db : Database) (H : List Label) (r : Record)
    (mode : SyncMode) : Prop where
  writes : ρ.writes H r mode
  settled : ρ.planned → db.options.backgroundMaintenance = true →
    db.backgroundStatus.isOk = true → ∀ c, db.compaction = some c → c.versionPublished = true
  seals : db.Freezes r → ρ.durable → ρ.Closes mode

section

variable {F : StorageFormat} {ρ : Regime} {σ σ' : Scene} {db d : Database} {st st' : Store}
  {q : Prop} {e : Status} {r : Record} {mode : SyncMode} {write : Option (Record × SyncMode)}
  {ret : Returned}

theorem Evolves.options_eq (h : Evolves σ write ret σ') : σ'.options = σ.options := by
  cases h with
  | same data => rw [data]; rfl
  | wrote _ data => rw [data]; rfl
  | raised _ data => rw [data]; rfl
  | doubt _ data => rw [data]; rfl

theorem Passes.options_eq (h : Passes F ρ σ write ret d st) : d.options = σ.options :=
  h.evolves.options_eq

/-- A section that leaves the data alone, and the members that the threads look at. -/
theorem Steady.passes (h : Steady F ρ σ' d st) (hdata : σ' = σ.under σ'.control)
    (hstatus : σ'.control.status = σ.control.status) (hstate : σ'.control.state = σ.control.state)
    (hrun : σ'.control.backgroundWorkRunning = σ.control.backgroundWorkRunning)
    (hstop : σ'.control.stopBackground = σ.control.stopBackground)
    (hret : write ≠ none → ret ≠ some (.ok ())) : Passes F ρ σ write ret d st := by
  have hscene := h.inv.scene
  have hcontrol := h.inv.control_eq
  constructor
  · exact h.of_scene
  · rw [hscene]
    exact .same hdata hstatus hret
  · rw [← hstate, ← hcontrol]
    rfl
  · rw [← hrun, ← hcontrol]
    rfl
  · rw [← hstop, ← hcontrol]
    rfl

theorem Steady.passes_same (h : Steady F ρ σ d st) (hret : write ≠ none → ret ≠ some (.ok ())) :
    Passes F ρ σ write ret d st :=
  h.passes rfl rfl rfl rfl rfl hret

/-- The section of a write that has succeeded. -/
theorem Rotated.passes (hr : Rotated (σ.wrote r mode) d)
    (h : Steady F ρ ((σ.wrote r mode).under d.control) d st) (hret : ret ≠ none) :
    Passes F ρ σ (some (r, mode)) ret d st := by
  have hscene := h.inv.scene
  have hcontrol := hr.control
  constructor
  · exact h.of_scene
  · rw [hscene]
    have hstatus : d.control.status = σ.control.status := by rw [hcontrol]; rfl
    exact .wrote rfl rfl hstatus hret
  · exact congrArg Control.state hcontrol
  · exact congrArg Control.backgroundWorkRunning hcontrol
  · exact congrArg Control.stopBackground hcontrol

/-- The section of a write that has failed. -/
theorem WriteFailed.passes (hP : F.Portable) (h : WriteFailed F ρ σ q db r mode e d st) :
    Passes F ρ σ (some (r, mode)) (some (.error e)) d st := by
  have hret : some (r, mode) ≠ none → some (Except.error e) ≠ some (Except.ok ()) := by
    intro _ hok
    cases hok
  have hraised : Steady F ρ (σ.raise.stuck e) d st → e.isOk = false →
      Passes F ρ σ (some (r, mode)) (some (.error e)) d st := by
    intro hs he
    have hk : d.control = { σ.control with status := e } := hs.inv.control_eq
    refine ⟨hs.of_scene, ?_, congrArg Control.state hk, congrArg Control.backgroundWorkRunning hk,
      congrArg Control.stopBackground hk⟩
    rw [hs.inv.scene]
    exact .raised (by simp) rfl he ⟨e, rfl⟩
  cases h with
  | denied _ h hdenied => exact h.passes_same hret
  | spoiled h hw hbad he => exact hraised h (he ▸ hbad)
  | refused h he =>
    exact hraised h (Status.Outer.not_ok (Or.inl (he.code hP)))
  | doubt h he =>
    have hk : d.control = { σ.control with status := e } := h.inv.control_eq
    refine ⟨h.of_scene, ?_, congrArg Control.state hk, congrArg Control.backgroundWorkRunning hk,
      congrArg Control.stopBackground hk⟩
    rw [h.inv.scene]
    exact .doubt rfl rfl (Status.Outer.not_ok (Or.inr he)) ⟨e, rfl⟩
  | rotated h hc =>
    have hk : d.control = σ.control := h.inv.control_eq
    refine ⟨h.of_scene, ?_, congrArg Control.state hk, congrArg Control.backgroundWorkRunning hk,
      congrArg Control.stopBackground hk⟩
    rw [h.inv.scene]
    exact .wrote rfl rfl rfl (by simp)

/-! ## Flush and Compact -/

/-- A sticky error is returned before anything is done. -/
def Stuck (σ : Scene) (e : Status) : Prop := σ.control.status.isOk = false ∧ e = σ.control.status

/-- `Flush` and `Compact` after their wait: on success the status of the worker is cleared. -/
theorem resume_keeps {K R : Store → Prop} {work : Act Unit} {D : Database → Prop}
    {A : Status → Database → Prop}
    (hwork : Acts q K (At db R) work (fun _ d st => Steady F ρ σ d st ∧ D d)
      (fun e d st => Steady F ρ σ d st ∧ A e d)) :
    Acts q K (At db R)
      (do
        match ← Prog.attempt work with
        | .ok () => modifyDb (fun db => { db with backgroundStatus := .ok })
        | .error e => Prog.fail e)
      (fun _ d st => ∃ d', Steady F ρ σ d' st ∧ D d' ∧ d = { d' with backgroundStatus := .ok })
      (fun e d st => Steady F ρ σ d st ∧ A e d) := by
  apply Acts.attempt_bind hwork
  · intro _
    apply Acts.fix
    intro d
    exact Acts.modifyDb (fun st h => ⟨d, h.1, h.2, rfl⟩)
  · intro e
    apply Acts.fix
    intro d
    exact Acts.fail (fun st h => h)

/-- A call that checks the sticky status first. -/
theorem Acts.sticky {K : Store → Prop} {work : Database → Act Unit} {D : Database → Prop}
    {A : Status → Database → Prop}
    (hwork : σ.control.status.isOk = true → Acts q K (At db (Steady F ρ σ db))
      (do
        let db ← getDb
        if !db.status.isOk then Prog.fail db.status else work db)
      (fun _ d st => Steady F ρ σ d st ∧ D d) (fun e d st => Steady F ρ σ d st ∧ A e d)) :
    Acts q K (At db (Steady F ρ σ db))
      (do
        let db ← getDb
        if !db.status.isOk then Prog.fail db.status else work db)
      (fun _ d st => Steady F ρ σ d st ∧ D d)
      (fun e d st => Steady F ρ σ d st ∧ (A e d ∨ Stuck σ e)) := by
  by_cases hok : σ.control.status.isOk = true
  · exact (hwork hok).errors (fun _ _ _ h => ⟨h.1, Or.inl h.2⟩)
  · have hbad : σ.control.status.isOk = false := by simpa using hok
    refine Acts.know (fun _ h => h.status_eq) (fun hstatus => ?_)
    apply Acts.getDb_bind
    refine Acts.ite (fun _ => ?_) (fun hno => ?_)
    · exact Acts.fail (fun st h => ⟨h, Or.inr ⟨hbad, hstatus⟩⟩)
    · rw [hstatus, hbad] at hno
      exact absurd rfl hno

theorem flushResume_keeps (hF : F.Lawful) (hord : ρ.ordered) (hopen : σ.control.state ≠ .closed) :
    Acts q (Remains F σ.format ρ) (At db (Steady F ρ σ db)) (flushResume F)
      (fun _ d st => ∃ d', Steady F ρ σ d' st ∧ FlushedLocked db d' ∧
        d = { d' with backgroundStatus := .ok })
      (fun e d st => Steady F ρ σ d st ∧ (Cause F ρ q d.contents e ∨ Stuck σ e)) :=
  resume_keeps (Acts.sticky (fun hok => flushLocked_acts hF hord hopen hok))

theorem compactResume_keeps (hF : F.Lawful) (hord : ρ.ordered)
    (hopen : σ.control.state ≠ .closed) :
    Acts q (Remains F σ.format ρ) (At db (Steady F ρ σ db)) (compactResume F)
      (fun _ d st => ∃ d', Steady F ρ σ d' st ∧ CompactedLocked ρ db d' ∧
        d = { d' with backgroundStatus := .ok })
      (fun e d st => Steady F ρ σ d st ∧
        (((σ.options.compactionOutputSizeLimit ≤ maxUInt64 → Cause F ρ q d.contents e) ∨
          Crowded db e) ∨ Stuck σ e)) :=
  resume_keeps (Acts.sticky (fun hok => compactLocked_acts hF hord hopen hok))

/-- The end of `Close`, with the database that it closes. -/
theorem closeFinish_ends (hF : F.Lawful) (hord : ρ.ordered) (hopen : σ.control.state ≠ .closed) :
    Acts q (Remains F σ.format ρ) (At db (Steady F ρ σ db)) (closeFinish F)
      (fun _ d st => ∃ d' status, Steady F ρ σ d' st ∧ d = d'.ended status ∧ status.isOk = true ∧
        ((d'.compaction = none ∧ d'.immutable = none ∧ d'.mutableTable.entries = []) ∨
          Cause F ρ q d'.contents status))
      (fun e d st => ∃ d', Steady F ρ σ d' st ∧ d = d'.ended e ∧ Cause F ρ q d'.contents e) := by
  apply Acts.attempt_bind (closeFlush_acts hF hord hopen)
  · intro _
    apply Acts.fix
    intro d
    refine Acts.modifyDb_bind (Acts.ite (fun _ => ?_) (fun hno => absurd rfl hno))
    exact Acts.pure (fun st h => ⟨d, _, h.1, rfl, rfl, Or.inl h.2⟩)
  · intro e
    apply Acts.fix
    intro d
    refine Acts.modifyDb_bind (Acts.ite (fun hok => ?_) (fun _ => ?_))
    · exact Acts.pure (fun st h => ⟨d, e, h.1, rfl, hok, Or.inr h.2⟩)
    · exact Acts.fail (fun st h => ⟨d, h.1, rfl, h.2⟩)

/-- A call that has set the status of the worker. -/
theorem Steady.passes_cleared (h : Steady F ρ σ d st) (status : Status) :
    Passes F ρ σ none ret { d with backgroundStatus := status } st := by
  have hs := h.setControl (d := { d with backgroundStatus := status }) rfl rfl id
  have hk := h.inv.control_eq
  refine hs.passes rfl ?_ ?_ ?_ ?_ (fun hno => absurd rfl hno)
  · rw [← hk]
    rfl
  · rw [← hk]
    rfl
  · rw [← hk]
    rfl
  · rw [← hk]
    rfl

end

/-! ## The invariant -/

/-- What the worker relies on, and what the others rely on while it works. -/
inductive Worker.Attends (F : StorageFormat) (q : Prop) (db : Database) (st : Store) :
    Worker → Prop
  | absent (free : db.backgroundWorkRunning = false)
      (left : db.options.backgroundMaintenance = true → db.stopBackground = true) :
      Attends F q db st .absent
  | idle (free : db.backgroundWorkRunning = false)
      (mode : db.options.backgroundMaintenance = true) : Attends F q db st .idle
  | publishing {imm : ImmutableGeneration} {stage : PublishStage}
      (busy : db.backgroundWorkRunning = true) (mode : db.options.backgroundMaintenance = true)
      (immutable : db.immutable = some imm) (unpublished : imm.versionPublished = false)
      (unwritten : imm.pendingTable = none)
      (reached : StageInv F db.format imm.generation imm.memtable q stage st) :
      Attends F q db st (.publishing imm.generation imm.memtable stage)

/-- A thread that is not publishing does not look at the store. -/
theorem Worker.Attends.free {F : StorageFormat} {q : Prop} {w : Worker} {db d : Database}
    {st st' : Store} (h : w.Attends F q db st)
    (hfree : db.backgroundWorkRunning = false) (ho : d.options = db.options)
    (hrun : d.backgroundWorkRunning = false) (hstop : d.stopBackground = db.stopBackground) :
    w.Attends F q d st' := by
  cases h with
  | absent _ left =>
    refine .absent hrun ?_
    rw [ho, hstop]
    exact left
  | idle _ mode =>
    refine .idle hrun ?_
    rw [ho]
    exact mode
  | publishing busy =>
    rw [hfree] at busy
    cases busy

theorem Worker.Attends.foreground {F : StorageFormat} {q : Prop} {w : Worker} {db : Database}
    {st : Store} (h : w.Attends F q db st) (hfg : db.options.backgroundMaintenance = false) :
    db.backgroundWorkRunning = false := by
  cases h with
  | absent free => exact free
  | idle free => exact free
  | publishing _ mode =>
    rw [hfg] at mode
    cases mode

/-- Members that the worker does not look at may change. -/
theorem Worker.Attends.members {F : StorageFormat} {q : Prop} {w : Worker} {db d : Database}
    {st : Store} (h : w.Attends F q db st) (ho : d.options = db.options)
    (hrun : d.backgroundWorkRunning = db.backgroundWorkRunning)
    (himm : d.immutable = db.immutable)
    (hstop : db.stopBackground = true → d.stopBackground = true) : w.Attends F q d st := by
  cases h with
  | absent free left =>
    refine .absent (hrun.trans free) (fun hbg => hstop (left ?_))
    rw [← ho]
    exact hbg
  | idle free mode =>
    refine .idle (hrun.trans free) ?_
    rw [ho]
    exact mode
  | publishing busy mode immutable unpublished unwritten reached =>
    refine .publishing (hrun.trans busy) ?_ (himm.trans immutable) unpublished unwritten ?_
    · rw [ho]
      exact mode
    · rw [Database.format, ho]
      exact reached

theorem Worker.Attends.stage {F : StorageFormat} {q : Prop} {db : Database} {st : Store} {g : Nat}
    {m : MemTable} {stage : PublishStage}
    (h : (Worker.publishing g m stage).Attends F q db st) :
    StageInv F db.format g m q stage st := by
  cases h with
  | publishing _ _ _ _ _ reached => exact reached

namespace Instance

/-- What holds of an open instance between two steps, in either mode. -/
structure Joint (F : StorageFormat) (ρ : Regime) (q : Prop) (inst : Instance) (st : Store) :
    Prop where
  steady : Steady F ρ (sceneOf inst.db st) inst.db st
  worker : inst.worker.Attends F q inst.db st
  state : inst.db.state ≠ .closed
  stop : inst.db.stopBackground = true ↔ inst.db.state = .closing
  joins : inst.parked.count .closeJoin = if inst.db.state = .closing then 1 else 0
  writers : inst.db.options.backgroundMaintenance = false →
    ∀ type key value mode, Parked.write type key value mode ∉ inst.parked
  modes : inst.db.options.backgroundMaintenance = true → ¬ ρ.single

/-- What a step makes of an open instance. -/
inductive Goes (F : StorageFormat) (ρ : Regime) (q : Prop) (inst : Instance) (σ : Scene)
    (write : Option (Record × SyncMode)) (r : Returned × Instance) (st : Store) : Prop
  | on (joint : r.2.Joint F ρ q st) (evolves : Evolves σ write r.1 (sceneOf r.2.db st))
  | closed {d : Database} {status : Status} (worker : r.2.worker = .absent)
      (steady : Steady F ρ σ d st) (ended : r.2.db = d.ended status)
      (parked : ∀ p ∈ r.2.parked, p ≠ .closeJoin ∧ p ∈ inst.parked) (silent : write = none)

section

variable {F : StorageFormat} {ρ : Regime} {q : Prop} {σ : Scene} {inst inst₀ : Instance}
  {d : Database} {st st' : Store} {write : Option (Record × SyncMode)} {ret : Returned}

theorem Joint.of_scene (h : inst.Joint F ρ q st) (hσ : sceneOf inst.db st = σ) :
    Steady F ρ σ inst.db st := hσ ▸ h.steady

/-- A section keeps the invariant if it keeps what the worker relies on. -/
theorem Joint.passes (h : inst.Joint F ρ q st) (hσ : sceneOf inst.db st = σ)
    (hp : Passes F ρ σ write ret d st') (hw : inst.worker.Attends F q d st') :
    Joint F ρ q { inst with db := d } st' := by
  subst hσ
  have hstate : d.state = inst.db.state := hp.state
  have hopt : d.options = inst.db.options := hp.options_eq
  constructor
  case steady => exact hp.steady
  case worker => exact hw
  case state =>
    show d.state ≠ _
    rw [hstate]
    exact h.state
  case stop =>
    show d.stopBackground = true ↔ d.state = _
    rw [hstate, hp.stop]
    exact h.stop
  case joins =>
    show _ = if d.state = _ then 1 else 0
    rw [hstate]
    exact h.joins
  case writers =>
    show d.options.backgroundMaintenance = false → _
    rw [hopt]
    exact h.writers
  case modes =>
    show d.options.backgroundMaintenance = true → _
    rw [hopt]
    exact h.modes

/-- A section of a thread that waits for the worker. -/
theorem Joint.passes_free (h : inst.Joint F ρ q st) (hσ : sceneOf inst.db st = σ)
    (hfree : inst.db.backgroundWorkRunning = false) (hp : Passes F ρ σ write ret d st') :
    inst.worker.Attends F q d st' := by
  subst hσ
  exact h.worker.free hfree hp.options_eq (hp.running.trans hfree) hp.stop

/-- A call that changes nothing yet. -/
theorem Joint.goes (h : inst.Joint F ρ q st) (hσ : sceneOf inst.db st = σ)
    (hret : write ≠ none → ret ≠ some (.ok ())) : Goes F ρ q inst₀ σ write (ret, inst) st := by
  refine .on h ?_
  subst hσ
  exact .same rfl rfl hret

/-- Taking a call that waits off the list. -/
theorem Joint.unpark (h : inst.Joint F ρ q st) {position : Nat} {p : Parked}
    (hp : inst.parked[position]? = some p) (hne : p ≠ .closeJoin) :
    (inst.unpark position).Joint F ρ q st := by
  refine ⟨h.steady, h.worker, h.state, h.stop, ?_, fun hbg type key value mode hmem => ?_, h.modes⟩
  · obtain ⟨hlt, hget⟩ := List.getElem?_eq_some_iff.mp hp
    have hperm := (List.getElem_cons_eraseIdx_perm hlt).count_eq Parked.closeJoin
    rw [hget, List.count_cons_of_ne hne, h.joins] at hperm
    exact hperm
  · exact h.writers hbg type key value mode (List.mem_of_mem_eraseIdx hmem)

/-- A call that begins to wait. -/
theorem Joint.park (h : inst.Joint F ρ q st) {p : Parked} (hne : p ≠ .closeJoin)
    (hw : inst.db.options.backgroundMaintenance = false →
      ∀ type key value mode, Parked.write type key value mode ≠ p) :
    (inst.park p).Joint F ρ q st := by
  refine ⟨h.steady, h.worker, h.state, h.stop, ?_, fun hbg type key value mode hmem => ?_, h.modes⟩
  · show (inst.parked ++ [p]).count Parked.closeJoin = _
    rw [List.count_append, h.joins, List.count_cons_of_ne hne]
    rfl
  · rcases List.mem_append.mp hmem with hmem | hmem
    · exact h.writers hbg type key value mode hmem
    · exact hw hbg type key value mode (List.mem_singleton.mp hmem)

/-- A call that returns a status at once. -/
theorem Joint.answer {K : Store → Prop} {status : Status}
    (hw : write ≠ none → status.isOk = false) :
    Turn q (fun st => inst.Joint F ρ q st ∧ sceneOf inst.db st = σ) (inst.answer status)
      (Goes F ρ q inst₀ σ write) K := by
  apply Turn.pure
  intro st h
  refine h.1.goes h.2 (fun hne hret => ?_)
  rw [hw hne] at hret
  cases hret

/-! ## Writes -/

/-- A call that runs one section to its end. -/
theorem Joint.complete {m : Act Unit}
    (hm : Acts q (Remains F σ.format ρ)
      (At inst.db (fun st => inst.Joint F ρ q st ∧ sceneOf inst.db st = σ)) m
      (fun _ d st => Passes F ρ σ write (some (.ok ())) d st ∧ inst.worker.Attends F q d st)
      (fun e d st => Passes F ρ σ write (some (.error e)) d st ∧ inst.worker.Attends F q d st)) :
    Turn q (fun st => inst.Joint F ρ q st ∧ sceneOf inst.db st = σ) (inst.complete m)
      (Goes F ρ q inst₀ σ write) (Remains F σ.format ρ) := by
  intro fs hs
  refine Prog.Triple.post (Acts.finishes hm) ?_ fs hs
  intro r fs' hr
  obtain ⟨hq, d, hinst, hcase⟩ := hr
  obtain ⟨ret, i⟩ := r
  obtain rfl : i = { inst with db := d } := hinst
  rcases hcase with ⟨hret, hp, hw⟩ | ⟨e, hret, hp, hw⟩
  · obtain rfl : ret = some (.ok ()) := hret
    exact ⟨hq, .on (hs.2.1.passes hs.2.2 hp hw) hp.evolves⟩
  · obtain rfl : ret = some (.error e) := hret
    exact ⟨hq, .on (hs.2.1.passes hs.2.2 hp hw) hp.evolves⟩

/-- A write that is refused after its wait. -/
theorem complete_refused (h : inst.db.isRunning = false ∨
      (inst.db.options.backgroundMaintenance = true ∧ inst.db.backgroundStatus.isOk = false) ∨
      inst.db.wal = none)
    (type : ValueType) (key value : Bytes) (mode : SyncMode) (fs : Fs) :
    ∃ e, inst.complete (MiniKV.writeFinish F type key value mode) fs =
      (.ok (some (.error e), inst), fs) := by
  obtain ⟨e, he⟩ := writeFinish_refused (F := F) h type key value mode fs
  have hrun : runSection inst.db (MiniKV.writeFinish F type key value mode) fs =
      (.ok (.error e, inst.db), fs) := by
    unfold runSection
    rw [he]
  exact ⟨e, Prog.bind_of_ok hrun⟩

/-- The end of a write, whatever the worker is doing. -/
theorem Joint.writeFinish (hF : F.Lawful) (hP : F.Portable) (hord : ρ.ordered) {r : Record}
    {type : ValueType} {key value : Bytes} {mode : SyncMode}
    (hr : r = ⟨key, inst.db.lastSequence + 1, type, value⟩)
    (hwrite : ρ.writes σ.history r mode)
    (hpl : ρ.planned →
      (inst.db.options.backgroundMaintenance = true → inst.db.backgroundStatus.isOk = true) →
      ∀ c, inst.db.compaction = some c → c.versionPublished = true)
    (hseal : inst.db.Freezes r → ρ.durable → ρ.Closes mode)
    (hfg : inst.db.options.backgroundMaintenance = false → σ.control.status.isOk = true) :
    Turn q (fun st => inst.Joint F ρ q st ∧ sceneOf inst.db st = σ)
      (inst.complete (writeFinish F type key value mode)) (Goes F ρ q inst₀ σ (some (r, mode)))
      (Remains F σ.format ρ) := by
  by_cases hrefused : inst.db.options.backgroundMaintenance = true ∧
      inst.db.backgroundStatus.isOk = false
  · intro fs hs
    obtain ⟨e, he⟩ := complete_refused (F := F) (Or.inr (Or.inl hrefused)) type key value mode fs
    rw [he]
    exact ⟨hs.1, hs.2.1.goes hs.2.2 (by simp)⟩
  have hpl : ρ.planned → ∀ c, inst.db.compaction = some c → c.versionPublished = true :=
    fun hp => hpl hp (fun hbg => by simpa [hbg] using hrefused)
  apply Joint.complete
  refine Acts.know (fun st h => Exists.intro st h) (fun hknown => ?_)
  obtain ⟨st₀, hjoint, hσ⟩ := hknown
  have hopt : inst.db.options = σ.options := (hjoint.of_scene hσ).options_eq
  have hacts := writeFinish_acts (q := q) hF hord hr hwrite hpl
    (fun h => hfg (hopt ▸ h)) (fun h => hjoint.modes (hopt ▸ h)) hseal
  by_cases hfree : inst.db.backgroundWorkRunning = false
  · have hkeep : ∀ {ret d st}, Passes F ρ σ (some (r, mode)) ret d st →
        inst.worker.Attends F q d st := fun hp => hjoint.passes_free hσ hfree hp
    refine Acts.weaken _ (hacts.conseq (fun _ _ h => h) ?_ ?_) (fun st h => h.1.of_scene h.2)
    · intro _ d st h
      have hp : Passes F ρ σ (some (r, mode)) (some (.ok ())) d st := h.2.passes h.1 (by simp)
      exact ⟨hp, hkeep hp⟩
    · intro e d st h
      exact ⟨h.passes hP, hkeep (h.passes hP)⟩
  · -- the worker is publishing, and the write leaves its files alone
    have hworker := hjoint.worker
    generalize hw : inst.worker = worker at hworker
    cases hworker with
    | absent free => exact absurd free hfree
    | idle free => exact absurd free hfree
    | @publishing imm stage busy bg himm hun hnone _ =>
      have hkeeps := writeFinish_beside (F := F) (q := q) bg himm stage type key value mode
      have hkeep : ∀ {ret d st}, Passes F ρ σ (some (r, mode)) ret d st →
          Leaves inst.db (Reached F q inst.db imm stage) d st →
          (Worker.publishing imm.generation imm.memtable stage).Attends F q d st := by
        intro ret d st hp hl
        obtain ⟨hd, ho, -, hstage⟩ := hl
        subst hσ
        refine .publishing (hp.running.trans busy) ?_ (hd.trans himm) hun hnone ?_
        · rw [ho]
          exact bg
        · rw [Database.format, ho]
          exact hstage
      refine Acts.weaken _ ((hacts.and hkeeps).conseq (fun _ _ h => h) ?_ ?_) ?_
      · intro _ d st h
        have hp : Passes F ρ σ (some (r, mode)) (some (.ok ())) d st :=
          h.1.2.passes h.1.1 (by simp)
        exact ⟨hp, hkeep hp h.2⟩
      · intro e d st h
        exact ⟨h.1.passes hP, hkeep (h.1.passes hP) h.2⟩
      · intro st h
        have hs := h.1.of_scene h.2
        have hw' := h.1.worker
        rw [hw] at hw'
        exact ⟨hs, hs.inv.wal, hw'.stage⟩

/-- A write that has entered waits for the worker, or goes on. -/
theorem Joint.writeTurn (hF : F.Lawful) (hP : F.Portable) (hord : ρ.ordered) {r : Record}
    {type : ValueType} {key value : Bytes} {mode : SyncMode}
    (hr : r = ⟨key, inst.db.lastSequence + 1, type, value⟩)
    (hwrite : ρ.writes σ.history r mode)
    (hpl : ρ.planned →
      (inst.db.options.backgroundMaintenance = true → inst.db.backgroundStatus.isOk = true) →
      ∀ c, inst.db.compaction = some c → c.versionPublished = true)
    (hseal : inst.db.Freezes r → ρ.durable → ρ.Closes mode)
    (hfg : inst.db.options.backgroundMaintenance = false → σ.control.status.isOk = true) :
    Turn q (fun st => inst.Joint F ρ q st ∧ sceneOf inst.db st = σ)
      (inst.writeTurn F type key value mode) (Goes F ρ q inst₀ σ (some (r, mode)))
      (Remains F σ.format ρ) := by
  apply Turn.ite
  · intro hblock
    have hbg : inst.db.options.backgroundMaintenance = true := by
      simp only [writeBlocked, decide_eq_true_eq] at hblock
      exact hblock.1
    apply Turn.pure
    intro st h
    refine .on (h.1.park (by simp) (fun hno => ?_)) ?_
    · rw [hbg] at hno
      cases hno
    · rw [← h.2]
      exact .same rfl rfl (by simp)
  · intro _
    exact Joint.writeFinish hF hP hord hr hwrite hpl hseal hfg

/-- In background mode a write enters without touching anything. -/
theorem runSection_writeEnter {db : Database} (hbg : db.options.backgroundMaintenance = true)
    (mode : SyncMode) (fs : Fs) :
    ∃ result, runSection db (writeEnter F mode) fs = (.ok (result, db), fs) ∧
      ∀ u, result = .ok u → db.status.isOk = true := by
  unfold runSection writeEnter
  simp only [Prog.bind_apply, getDb]
  by_cases hrun : db.isRunning = true
  · by_cases hok : db.status.isOk = true
    · by_cases hmode : mode ≠ .sync ∧ mode ≠ .async
      · refine ⟨.error (.invalidArgument "write sync mode is invalid"), ?_, fun _ hno => by cases hno⟩
        simp [hrun, hok, hmode, Prog.fail]
      · refine ⟨.ok (), ?_, fun _ _ => hok⟩
        simp [hrun, hok, if_neg hmode, hbg]
        rfl
    · refine ⟨.error db.status, ?_, fun u hno => by cases hno⟩
      simp [hrun, hok, Prog.fail]
  · refine ⟨.error (.closed "database is not running"), ?_, fun u hno => by cases hno⟩
    simp [hrun, Prog.fail]

/-- `Put` and `Delete` in background mode. -/
theorem Joint.write_background (hF : F.Lawful) (hP : F.Portable) (hord : ρ.ordered)
    {r : Record} {type : ValueType} {key value : Bytes} {mode : SyncMode}
    (hbg : inst.db.options.backgroundMaintenance = true)
    (hr : r = ⟨key, inst.db.lastSequence + 1, type, value⟩)
    (htakes : ρ.Takes inst.db σ.history r mode) :
    Turn q (fun st => inst.Joint F ρ q st ∧ sceneOf inst.db st = σ)
      (inst.write F type key value mode) (Goes F ρ q inst₀ σ (some (r, mode)))
      (Remains F σ.format ρ) := by
  apply Turn.ite
  · intro hbad
    exact Joint.answer (fun _ => by simpa using hbad)
  · intro _ fs hs
    obtain ⟨result, hrun, hok⟩ := runSection_writeEnter (F := F) hbg mode fs
    rw [Prog.bind_of_ok hrun]
    cases result with
    | error e => exact ⟨hs.1, hs.2.1.goes hs.2.2 (by simp)⟩
    | ok u =>
      refine Joint.writeTurn hF hP hord hr htakes.writes
        (fun hpl hok => htakes.settled hpl hbg (hok hbg))
        htakes.seals (fun hno => ?_) fs hs
      rw [hbg] at hno
      cases hno

/-- `Put` and `Delete` in foreground mode. -/
theorem Joint.write_foreground (hF : F.Lawful) (hP : F.Portable) (hord : ρ.ordered)
    {r : Record} {type : ValueType} {key value : Bytes} {mode : SyncMode}
    (hfg : inst.db.options.backgroundMaintenance = false)
    (hr : r = ⟨key, inst.db.lastSequence + 1, type, value⟩)
    (hwrite : ρ.writes σ.history r mode) :
    Turn q (fun st => inst.Joint F ρ q st ∧ sceneOf inst.db st = σ)
      (inst.write F type key value mode) (Goes F ρ q inst₀ σ (some (r, mode)))
      (Remains F σ.format ρ) := by
  apply Turn.ite
  · intro hbad
    exact Joint.answer (fun _ => by simpa using hbad)
  · intro _ fs hs
    obtain ⟨hq, hjoint, hσ⟩ := hs
    have hsteady := hjoint.of_scene hσ
    have hmode : σ.options.backgroundMaintenance = false := hsteady.options_eq ▸ hfg
    have hfree := hjoint.worker.foreground hfg
    -- what the members are after the work that comes first
    have hjoint' : ∀ {d st}, Steady F ρ σ d st → Joint F ρ q { inst with db := d } st := by
      intro d st h
      have hp : Passes F ρ σ none none d st := h.passes_same (fun hno => absurd rfl hno)
      exact hjoint.passes hσ hp (hjoint.passes_free hσ hfree hp)
    refine Turn.bind (T := fun a st => (Joint F ρ q { inst with db := a.2 } st ∧
      sceneOf a.2 st = σ) ∧ ∀ u, a.1 = .ok u → Entered σ inst.db a.2) ?_ ?_ fs ⟨hq, hsteady⟩
    · refine Turn.conseq (writeEnter_acts hF hord mode).turn (fun _ h => h) ?_
      intro a st ha
      obtain ⟨result, d⟩ := a
      cases result with
      | ok u => exact ⟨⟨hjoint' ha.1, ha.1.inv.scene⟩, fun _ _ => ha.2⟩
      | error e => exact ⟨⟨hjoint' ha.1, ha.1.inv.scene⟩, fun u hno => by cases hno⟩
    · intro a
      obtain ⟨result, d⟩ := a
      cases result with
      | error e =>
        apply Turn.pure
        intro st h
        refine .on h.1.1 ?_
        show Evolves σ _ _ (sceneOf d st)
        rw [h.1.2]
        exact .same rfl rfl (by simp)
      | ok u =>
        refine Turn.know (fun _ h => h.2 u rfl) (fun hent => ?_)
        refine Turn.know (φ := d.options = σ.options ∧ d.lastSequence = σ.lastSequence)
          (fun _ h => ⟨congrArg Scene.options h.1.2, congrArg Scene.lastSequence h.1.2⟩)
          (fun hsame => ?_)
        refine Turn.conseq (Joint.writeTurn hF hP hord ?_ hwrite ?_ ?_ (fun _ => hent.status))
          (fun _ h => h.1) (fun _ _ h => h)
        · show r = ⟨key, d.lastSequence + 1, type, value⟩
          rw [hr, hsame.2, ← hσ]
          rfl
        · intro _ _ c hc
          rw [(hent.foreground hmode).1] at hc
          cases hc
        · intro hfreeze
          have hbg : d.options.backgroundMaintenance = true := hfreeze.background
          rw [hsame.1, hmode] at hbg
          cases hbg

/-! ## Maintenance -/

/-- `Flush` and `Compact` once the worker is not at work. -/
theorem Joint.maintain {m : Act Unit} (hfree : inst.db.backgroundWorkRunning = false)
    (hm : Acts q (Remains F σ.format ρ) (At inst.db (Steady F ρ σ inst.db)) m
      (fun _ d st => ∃ d', Steady F ρ σ d' st ∧ d = { d' with backgroundStatus := .ok })
      (fun _ d st => Steady F ρ σ d st)) :
    Turn q (fun st => inst.Joint F ρ q st ∧ sceneOf inst.db st = σ) (inst.complete m)
      (Goes F ρ q inst₀ σ none) (Remains F σ.format ρ) := by
  apply Joint.complete
  refine Acts.know (fun st h => Exists.intro st h) (fun hknown => ?_)
  obtain ⟨st₀, hjoint, hσ⟩ := hknown
  refine Acts.weaken _ (hm.conseq (fun _ _ h => h) ?_ ?_) (fun st h => h.1.of_scene h.2)
  · intro _ d st h
    obtain ⟨d', h', rfl⟩ := h
    have hp : Passes F ρ σ none (some (.ok ())) _ st := h'.passes_cleared .ok
    exact ⟨hp, hjoint.passes_free hσ hfree hp⟩
  · intro e d st h
    have hp : Passes F ρ σ none (some (.error e)) d st := h.passes_same (fun hno => absurd rfl hno)
    exact ⟨hp, hjoint.passes_free hσ hfree hp⟩

theorem Joint.flush (hF : F.Lawful) (hord : ρ.ordered)
    (hfree : inst.db.backgroundWorkRunning = false) :
    Turn q (fun st => inst.Joint F ρ q st ∧ sceneOf inst.db st = σ) (inst.complete (flushResume F))
      (Goes F ρ q inst₀ σ none) (Remains F σ.format ρ) := by
  refine Turn.know (φ := σ.control.state ≠ .closed) (fun _ h => h.2 ▸ h.1.state) (fun hopen => ?_)
  apply Joint.maintain hfree
  refine (flushResume_keeps hF hord hopen).conseq (fun _ _ h => h) ?_ (fun _ _ _ h => h.1)
  intro _ d st h
  obtain ⟨d', h', -, hd⟩ := h
  exact ⟨d', h', hd⟩

theorem Joint.compact (hF : F.Lawful) (hord : ρ.ordered)
    (hfree : inst.db.backgroundWorkRunning = false) :
    Turn q (fun st => inst.Joint F ρ q st ∧ sceneOf inst.db st = σ)
      (inst.complete (compactResume F)) (Goes F ρ q inst₀ σ none) (Remains F σ.format ρ) := by
  refine Turn.know (φ := σ.control.state ≠ .closed) (fun _ h => h.2 ▸ h.1.state) (fun hopen => ?_)
  apply Joint.maintain hfree
  refine (compactResume_keeps hF hord hopen).conseq (fun _ _ h => h) ?_ (fun _ _ _ h => h.1)
  intro _ d st h
  obtain ⟨d', h', -, hd⟩ := h
  exact ⟨d', h', hd⟩

/-! ## `Close` -/

/-- `Close` up to the join. -/
theorem Joint.close (hrun : inst.db.state = .running) :
    Turn q (fun st => inst.Joint F ρ q st ∧ sceneOf inst.db st = σ) (inst.call F .close)
      (Goes F ρ q inst₀ σ none) (Remains F σ.format ρ) := by
  intro fs hs
  obtain ⟨hq, h, hσ⟩ := hs
  obtain ⟨d, hd⟩ : ∃ d : Database, d = { inst.db with state := .closing, stopBackground := true } :=
    ⟨_, rfl⟩
  have hcall : inst.call F .close fs =
      (.ok (none, { inst with db := d }.park .closeJoin), fs) := by
    unfold Instance.call
    rw [hrun, hd]
    rfl
  have hs' : Steady F ρ (σ.under d.control) d fs.store := by
    rw [hd]
    refine (h.of_scene hσ).setControl rfl rfl (fun _ => ?_)
    rw [hrun]
    decide
  have hopt : d.options = inst.db.options := by rw [hd]
  have hworker : inst.worker.Attends F q d fs.store :=
    h.worker.members hopt (by rw [hd]) (by rw [hd]) (fun _ => by rw [hd])
  rw [hcall]
  refine ⟨hq, .on ?_ ?_⟩
  · constructor
    case steady => exact hs'.of_scene
    case worker => exact hworker
    case state =>
      show d.state ≠ .closed
      rw [hd]
      exact nofun
    case stop =>
      show d.stopBackground = true ↔ d.state = .closing
      rw [hd]
      exact ⟨fun _ => rfl, fun _ => rfl⟩
    case joins =>
      have hjoins := h.joins
      rw [hrun] at hjoins
      show (inst.parked ++ [Parked.closeJoin]).count Parked.closeJoin =
        if d.state = .closing then 1 else 0
      rw [List.count_append, hjoins, hd]
      rfl
    case writers =>
      intro hfg type key value mode hmem
      have hfg : inst.db.options.backgroundMaintenance = false := hopt ▸ hfg
      rcases List.mem_append.mp hmem with hmem | hmem
      · exact h.writers hfg type key value mode hmem
      · cases List.mem_singleton.mp hmem
    case modes =>
      intro hbg
      exact h.modes (hopt ▸ hbg)
  · show Evolves σ none none (sceneOf d fs.store)
    rw [hs'.inv.scene]
    refine .same rfl ?_ (fun hno => absurd rfl hno)
    rw [← (h.of_scene hσ).inv.control_eq, hd]
    rfl

/-- The `Close` that has joined the worker ends. -/
theorem Joint.join (hF : F.Lawful) (hord : ρ.ordered) {position : Nat}
    (hp : inst.parked[position]? = some .closeJoin) (hworker : inst.worker = .absent) :
    Turn q (fun st => inst.Joint F ρ q st ∧ sceneOf inst.db st = σ)
      ((inst.unpark position).complete (closeFinish F)) (Goes F ρ q inst σ none)
      (Remains F σ.format ρ) := by
  intro fs hs
  obtain ⟨hq, h, hσ⟩ := hs
  obtain ⟨hlt, hget⟩ := List.getElem?_eq_some_iff.mp hp
  have hone : inst.parked.count .closeJoin = 1 := by
    have hjoins := h.joins
    have hpos := List.count_pos_iff.mpr (List.mem_of_getElem? hp)
    split at hjoins <;> omega
  have hgone : Parked.closeJoin ∉ inst.parked.eraseIdx position := by
    have hperm := (List.getElem_cons_eraseIdx_perm hlt).count_eq Parked.closeJoin
    rw [hget, List.count_cons_self, hone] at hperm
    rw [← List.count_eq_zero]
    omega
  have hopen : σ.control.state ≠ .closed := hσ ▸ h.state
  refine Prog.Triple.post (Acts.finishes (closeFinish_ends hF hord hopen)) ?_ fs
    ⟨hq, h.of_scene hσ⟩
  intro r fs' hr
  obtain ⟨hq', d, hinst, hcase⟩ := hr
  have hended : ∃ d' status, Steady F ρ σ d' fs'.store ∧ d = d'.ended status := by
    rcases hcase with ⟨-, d', status, hs, hd, -⟩ | ⟨e, -, d', hs, hd, -⟩
    · exact ⟨d', status, hs, hd⟩
    · exact ⟨d', e, hs, hd⟩
  obtain ⟨d', status, hs, hd⟩ := hended
  have hdb : r.2.db = d'.ended status := by
    rw [hinst]
    exact hd
  refine ⟨hq', .closed ?_ hs hdb ?_ rfl⟩
  · rw [hinst]
    exact hworker
  · rw [hinst]
    intro p hmem
    refine ⟨fun hjoin => ?_, List.mem_of_mem_eraseIdx hmem⟩
    rw [hjoin] at hmem
    exact hgone hmem

/-! ## The worker -/

/-- The end of a round of the worker. -/
theorem workerFinish_turn {K R : Store → Prop} {work : Act Unit} {D : Database → Prop}
    {A : Status → Database → Prop}
    (hwork : Acts q K (At inst.db R) work (fun _ d st => Steady F ρ σ d st ∧ D d)
      (fun e d st => Steady F ρ σ d st ∧ A e d)) :
    Turn q R (inst.workerFinish work)
      (fun r st => ∃ d status, Steady F ρ σ d st ∧ ((status = .ok ∧ D d) ∨ A status d) ∧
        r = (none, { inst with
          db := { d with backgroundStatus := status, backgroundWorkRunning := false }
          worker := .idle })) K := by
  refine Turn.bind (backgroundFinish_acts (E := fun _ _ _ => False) hwork).turn (fun r => ?_)
  obtain ⟨result, d⟩ := r
  apply Turn.pure
  intro st h
  cases result with
  | error e => exact h.elim
  | ok u =>
    obtain ⟨d', status, hs, hd, hcase⟩ := h
    have hd : d = _ := hd
    rw [hd]
    exact ⟨d', status, hs, hcase, rfl⟩

/-- The worker goes back to its wait. -/
theorem Joint.rests (h : inst.Joint F ρ q st) (hσ : sceneOf inst.db st = σ)
    (hbg : inst.db.options.backgroundMaintenance = true) {k : Control}
    (hstatus : k.status = σ.control.status) (hstate : k.state = σ.control.state)
    (hstop : k.stopBackground = σ.control.stopBackground)
    (hs : Steady F ρ (σ.under k) d st') (status : Status) :
    Goes F ρ q inst₀ σ none (none, { inst with
      db := { d with backgroundStatus := status, backgroundWorkRunning := false }
      worker := .idle }) st' := by
  have hk : d.control = k := hs.inv.control_eq
  have hopt : d.options = inst.db.options := by
    rw [hs.options_eq, ← hσ]
    rfl
  have hset := hs.setControl
    (d := { d with backgroundStatus := status, backgroundWorkRunning := false }) rfl rfl id
  have hdstate : d.state = inst.db.state := by
    rw [show d.state = k.state from congrArg Control.state hk, hstate, ← hσ]
    rfl
  have hdstop : d.stopBackground = inst.db.stopBackground := by
    rw [show d.stopBackground = k.stopBackground from congrArg Control.stopBackground hk, hstop,
      ← hσ]
    rfl
  refine .on ?_ ?_
  · constructor
    case steady => exact hset.of_scene
    case worker =>
      refine .idle rfl ?_
      show d.options.backgroundMaintenance = true
      rw [hopt]
      exact hbg
    case state =>
      show d.state ≠ .closed
      rw [hdstate]
      exact h.state
    case stop =>
      show d.stopBackground = true ↔ d.state = .closing
      rw [hdstate, hdstop]
      exact h.stop
    case joins =>
      show _ = if d.state = .closing then 1 else 0
      rw [hdstate]
      exact h.joins
    case writers =>
      show d.options.backgroundMaintenance = false → _
      rw [hopt]
      exact h.writers
    case modes =>
      show d.options.backgroundMaintenance = true → _
      rw [hopt]
      exact h.modes
  · show Evolves σ none none (sceneOf _ st')
    rw [hset.inv.scene]
    refine .same rfl ?_ (fun hno => absurd rfl hno)
    rw [← hstatus, ← hk]
    rfl

/-- The worker starts a round. -/
def begun (db : Database) : Database :=
  { db with backgroundWorkRequested := false, backgroundWorkRunning := true }

/-- A round without an unlocked part. -/
theorem Joint.round (hF : F.Lawful) (hord : ρ.ordered)
    (hbg : inst.db.options.backgroundMaintenance = true) :
    Turn q (fun st => inst.Joint F ρ q st ∧ sceneOf inst.db st = σ)
      (workerFinish { inst with db := begun inst.db } (backgroundWork F))
      (Goes F ρ q inst₀ σ none) (Remains F σ.format ρ) := by
  intro fs hs
  obtain ⟨hq, h, hσ⟩ := hs
  have hopen : (σ.under (begun inst.db).control).control.state ≠ .closed := h.state
  have hsteady : Steady F ρ (σ.under (begun inst.db).control) (begun inst.db) fs.store :=
    (h.of_scene hσ).setControl rfl rfl id
  have hwork : Acts q _ (At (begun inst.db) _) _ _ _ := backgroundWork_acts hF hord hopen
  refine Prog.Triple.post (workerFinish_turn hwork) ?_ fs ⟨hq, hsteady⟩
  intro r fs' hr
  obtain ⟨hq', d, status, hd, -, rfl⟩ := hr
  subst hσ
  exact ⟨hq', h.rests rfl hbg (k := (begun inst.db).control) rfl rfl rfl hd status⟩

/-- The worker has the lock again after it has published a table. -/
theorem Joint.published (hF : F.Lawful) (hord : ρ.ordered) {g : Nat} {m : MemTable}
    {result : Except Status SSTableReader}
    (hw : inst.worker = .publishing g m (.done result)) :
    Turn q (fun st => inst.Joint F ρ q st ∧ sceneOf inst.db st = σ)
      (inst.workerFinish (backgroundPublished F g result)) (Goes F ρ q inst₀ σ none)
      (Remains F σ.format ρ) := by
  intro fs hs
  obtain ⟨hq, h, hσ⟩ := hs
  have hopen : σ.control.state ≠ .closed := hσ ▸ h.state
  have hworker := h.worker
  rw [hw] at hworker
  cases hworker with
  | @publishing imm stage busy bg himm hun hnone hstage =>
    have hwork := backgroundPublished_acts (q := q) hF hord hopen himm hun hnone result
    refine Prog.Triple.post (workerFinish_turn hwork) ?_ fs ⟨hq, h.of_scene hσ, hstage⟩
    intro r fs' hr
    obtain ⟨hq', d, status, hd, -, rfl⟩ := hr
    exact ⟨hq', h.rests hσ bg (k := σ.control) rfl rfl rfl hd status⟩

/-- The worker makes one call of `PublishTable`, without the lock. -/
theorem Joint.publish (hF : F.Lawful) (hord : ρ.ordered) {g : Nat} {m : MemTable}
    {stage : PublishStage} (hw : inst.worker = .publishing g m stage) :
    Turn q (fun st => inst.Joint F ρ q st ∧ sceneOf inst.db st = σ)
      (do
        let stage ← publishStep F inst.db.format g m stage
        pure (none, { inst with worker := .publishing g m stage }))
      (Goes F ρ q inst₀ σ none) (Remains F σ.format ρ) := by
  intro fs hs
  obtain ⟨hq, h, hσ⟩ := hs
  have hworker := h.worker
  rw [hw] at hworker
  cases hworker with
  | @publishing imm stage busy bg himm hun hnone hstage =>
    have hsteady := h.of_scene hσ
    have hcontents := hsteady.inv.contents
    have hi := (hcontents.order hord).immutable imm himm
    have hspec := publishStep_spec (q := q) (P := Inv F ρ σ inst.db) (o := inst.db.format)
      (m := imm.memtable) hF Inv.stable (by simp [FileName.isTemporary]) hi.generation_ne hi.ne_nil
      (fun st i b _ hinv ht => hinv.renamed_table ht
        (fun hd => hcontents.unused_immutable (ρ.durable_imp hd).2 himm hun hnone)) stage
    have hturn : Turn q (fun st => Inv F ρ σ inst.db st ∧
        StageInv F inst.db.format imm.generation imm.memtable q stage st)
        (publishStep F inst.db.format imm.generation imm.memtable stage)
        (fun stage' st => Inv F ρ σ inst.db st ∧
          StageInv F inst.db.format imm.generation imm.memtable q stage' st)
        (Remains F σ.format ρ) :=
      Prog.Triple.conseq hspec (fun _ hs => hs) (fun _ _ hs => ⟨hs.1, hs.2.1, hs.2.2.1⟩)
        (fun _ _ hs => hs.2.2) (fun _ hs => ⟨hs.1, hs.2.remains⟩)
    refine Turn.bind hturn (fun stage' => ?_) fs ⟨hq, hsteady.inv, hstage⟩
    apply Turn.pure
    intro st hst
    have hs' : Steady F ρ σ inst.db st := ⟨hst.1, hsteady.tidy⟩
    refine .on ?_ ?_
    · exact ⟨hs'.of_scene, .publishing busy bg himm hun hnone hst.2, h.state, h.stop, h.joins,
        h.writers, h.modes⟩
    · show Evolves σ none none (sceneOf inst.db st)
      rw [hst.1.scene]
      exact .same rfl rfl (fun hno => absurd rfl hno)

theorem Joint.workerStep (hF : F.Lawful) (hord : ρ.ordered) :
    Turn q (fun st => inst.Joint F ρ q st ∧ sceneOf inst.db st = σ) (inst.workerStep F)
      (Goes F ρ q inst₀ σ none) (Remains F σ.format ρ) := by
  have hwait : Turn q (fun st => inst.Joint F ρ q st ∧ sceneOf inst.db st = σ)
      (pure (none, inst) : Io (Returned × Instance)) (Goes F ρ q inst₀ σ none)
      (Remains F σ.format ρ) :=
    Turn.pure (fun st h => h.1.goes h.2 (fun hno => absurd rfl hno))
  unfold Instance.workerStep
  cases hw : inst.worker with
  | absent => exact hwait
  | idle =>
    have hmode : ∀ {st}, inst.Joint F ρ q st → inst.db.options.backgroundMaintenance = true ∧
        inst.db.backgroundWorkRunning = false := by
      intro st h
      have hworker := h.worker
      rw [hw] at hworker
      cases hworker with
      | idle free mode => exact ⟨mode, free⟩
    refine Turn.know (fun st h => hmode h.1) (fun hknown => ?_)
    obtain ⟨hbg, hfree⟩ := hknown
    refine Turn.ite (fun hstop => ?_) (fun _ => Turn.ite (fun _ => hwait) (fun _ => ?_))
    · -- the thread returns
      apply Turn.pure
      intro st h
      refine .on ?_ ?_
      · exact ⟨h.1.steady, .absent hfree (fun _ => hstop), h.1.state, h.1.stop, h.1.joins,
          h.1.writers, h.1.modes⟩
      · show Evolves σ none none (sceneOf inst.db st)
        rw [h.2]
        exact .same rfl rfl (fun hno => absurd rfl hno)
    · -- a round begins, with an unlocked part if there is a table to write
      dsimp only
      split
      case h_2 himm => exact Joint.round hF hord hbg
      case h_1 imm himm =>
        have himm : inst.db.immutable = some imm := himm
        refine Turn.ite (fun hopen => ?_) (fun _ => Joint.round hF hord hbg)
        apply Turn.pure
        intro st h
        have hset : Steady F ρ (σ.under (begun inst.db).control) (begun inst.db) st :=
          (h.1.of_scene h.2).setControl rfl rfl id
        have hpublishing : (Worker.publishing imm.generation imm.memtable .start).Attends F q
            (begun inst.db) st :=
          .publishing rfl hbg himm (by simpa using hopen.1)
            (Option.isNone_iff_eq_none.mp hopen.2) trivial
        refine .on ?_ ?_
        · exact ⟨hset.of_scene, hpublishing, h.1.state, h.1.stop, h.1.joins, h.1.writers,
            h.1.modes⟩
        · show Evolves σ none none (sceneOf (begun inst.db) st)
          rw [hset.inv.scene]
          refine .same rfl ?_ (fun hno => absurd rfl hno)
          rw [← h.2]
          rfl
  | publishing g m stage =>
    cases stage with
    | done result => exact Joint.published hF hord hw
    | _ => exact Joint.publish hF hord hw

/-! ## Every step -/

theorem Joint.call (hF : F.Lawful) (hP : F.Portable) (hord : ρ.ordered) (c : Call)
    (htakes : ∀ r mode, inst.carries (.call c) = some (r, mode) →
      ρ.Takes inst.db σ.history r mode) :
    Turn q (fun st => inst.Joint F ρ q st ∧ sceneOf inst.db st = σ) (inst.call F c)
      (Goes F ρ q inst₀ σ (inst.carries (.call c))) (Remains F σ.format ρ) := by
  have hwrite : ∀ type key value mode,
      ρ.Takes inst.db σ.history ⟨key, inst.db.lastSequence + 1, type, value⟩ mode →
      Turn q (fun st => inst.Joint F ρ q st ∧ sceneOf inst.db st = σ)
        (inst.write F type key value mode)
        (Goes F ρ q inst₀ σ (some (⟨key, inst.db.lastSequence + 1, type, value⟩, mode)))
        (Remains F σ.format ρ) := by
    intro type key value mode ht
    cases hbg : inst.db.options.backgroundMaintenance with
    | true => exact Joint.write_background hF hP hord hbg rfl ht
    | false => exact Joint.write_foreground hF hP hord hbg rfl ht.writes
  have hpark : ∀ p, p ≠ .closeJoin → (∀ type key value mode, Parked.write type key value mode ≠ p) →
      Turn q (fun st => inst.Joint F ρ q st ∧ sceneOf inst.db st = σ)
        (pure (none, inst.park p) : Io (Returned × Instance)) (Goes F ρ q inst₀ σ none)
        (Remains F σ.format ρ) := by
    intro p hne hw
    exact Turn.pure (fun st h => (h.1.park hne (fun _ => hw)).goes h.2 (fun hno => absurd rfl hno))
  cases c with
  | put key value mode => exact hwrite _ _ _ _ (htakes _ _ rfl)
  | delete key mode => exact hwrite _ _ _ _ (htakes _ _ rfl)
  | flush =>
    refine Turn.ite (fun _ => Joint.answer (fun hno => absurd rfl hno)) (fun _ => ?_)
    refine Turn.ite (fun _ => hpark _ (by simp) (by simp)) (fun hfree => ?_)
    exact Joint.flush hF hord (by simpa using hfree)
  | compact =>
    refine Turn.ite (fun _ => Joint.answer (fun hno => absurd rfl hno)) (fun _ => ?_)
    refine Turn.ite (fun _ => hpark _ (by simp) (by simp)) (fun hfree => ?_)
    exact Joint.compact hF hord (by simpa using hfree)
  | waitForBackgroundWork =>
    refine Turn.ite (fun _ => Joint.answer (fun hno => absurd rfl hno)) (fun _ => ?_)
    refine Turn.ite (fun _ => hpark _ (by simp) (by simp)) (fun _ => ?_)
    exact Joint.answer (fun hno => absurd rfl hno)
  | close =>
    cases hstate : inst.db.state with
    | closed => exact Turn.know (fun st h => absurd hstate h.1.state) False.elim
    | closing =>
      unfold Instance.call
      rw [hstate]
      exact hpark _ (by simp) (by simp)
    | running => exact Joint.close hstate

theorem Joint.resume (hF : F.Lawful) (hP : F.Portable) (hord : ρ.ordered) (position : Nat)
    (htakes : ∀ r mode, inst.carries (.resume position) = some (r, mode) →
      ρ.Takes inst.db σ.history r mode) :
    Turn q (fun st => inst.Joint F ρ q st ∧ sceneOf inst.db st = σ) (inst.resume F position)
      (Goes F ρ q inst σ (inst.carries (.resume position))) (Remains F σ.format ρ) := by
  have hwait : Turn q (fun st => inst.Joint F ρ q st ∧ sceneOf inst.db st = σ)
      (pure (none, inst) : Io (Returned × Instance)) (Goes F ρ q inst σ none)
      (Remains F σ.format ρ) :=
    Turn.pure (fun st h => h.1.goes h.2 (fun hno => absurd rfl hno))
  unfold Instance.resume
  simp only [Instance.carries] at htakes ⊢
  cases hp : inst.parked[position]? with
  | none => exact hwait
  | some p =>
    -- the call that wakes up is off the list
    have hoff : p ≠ .closeJoin → ∀ st, inst.Joint F ρ q st ∧ sceneOf inst.db st = σ →
        (inst.unpark position).Joint F ρ q st ∧ sceneOf (inst.unpark position).db st = σ :=
      fun hne st h => ⟨h.1.unpark hp hne, h.2⟩
    cases p with
    | write type key value mode =>
      refine Turn.know (fun st h => h.1.writers) (fun hwriters => ?_)
      have ht := htakes _ _ (by rw [hp])
      have hbg : inst.db.options.backgroundMaintenance = true := by
        by_contra hno
        exact hwriters (by simpa using hno) type key value mode (List.mem_of_getElem? hp)
      refine Turn.conseq (Joint.writeTurn hF hP hord rfl ht.writes
        (fun hpl hok => ht.settled hpl hbg (hok hbg)) ht.seals (fun hno => ?_)) (hoff (by simp))
        (fun _ _ h => h)
      have hno : inst.db.options.backgroundMaintenance = false := hno
      rw [hbg] at hno
      cases hno
    | flush =>
      refine Turn.ite (fun _ => hwait) (fun hfree => ?_)
      have hfree : inst.db.backgroundWorkRunning = false := by simpa using hfree
      exact Turn.conseq (Joint.flush hF hord hfree)
        (hoff (by simp)) (fun _ _ h => h)
    | compact =>
      refine Turn.ite (fun _ => hwait) (fun hfree => ?_)
      have hfree : inst.db.backgroundWorkRunning = false := by simpa using hfree
      exact Turn.conseq (Joint.compact hF hord hfree)
        (hoff (by simp)) (fun _ _ h => h)
    | waitForBackgroundWork =>
      refine Turn.ite (fun _ => hwait) (fun _ => ?_)
      exact Turn.conseq (Joint.answer (fun hno => absurd rfl hno))
        (hoff (by simp)) (fun _ _ h => h)
    | closeJoin =>
      cases hw : inst.worker with
      | absent => exact Joint.join hF hord hp hw
      | idle => exact hwait
      | publishing g m stage => exact hwait
    | closeWait =>
      exact Turn.ite (fun hclosed => Turn.know (fun st h => absurd hclosed h.1.state) False.elim)
        (fun _ => hwait)

/-- Every step of an open instance keeps it in order, or closes it. What the database shows
changes only by the write that the step carries out. -/
theorem Joint.step (hF : F.Lawful) (hP : F.Portable) (hord : ρ.ordered) (a : Action)
    (htakes : ∀ r mode, inst.carries a = some (r, mode) → ρ.Takes inst.db σ.history r mode) :
    Turn q (fun st => inst.Joint F ρ q st ∧ sceneOf inst.db st = σ) (inst.step F a)
      (Goes F ρ q inst σ (inst.carries a)) (Remains F σ.format ρ) := by
  cases a with
  | call c => exact Joint.call hF hP hord c htakes
  | resume position => exact Joint.resume hF hP hord position htakes
  | worker => exact Joint.workerStep hF hord

end

end Instance

end MiniKV
