import MiniKV.Sections.Write

/-!
# The worker

The sections that the worker runs under the lock, and what may happen to the
table it publishes without the lock: a write beside it changes the file of the
open log and nothing else on the disk.
-/

namespace MiniKV

open Lib

section

variable {α : Type} {F : StorageFormat} {ρ : Regime} {σ : Scene} {db : Database} {st st' : Store}
  {q : Prop} {K R : Store → Prop} {imm : ImmutableGeneration}

/-! ## Sections of the worker -/

/-- Two sections that do the same from the members at hand. -/
theorem Acts.congr {m m' : Act α} {Q : α → Database → Store → Prop}
    {E : Status → Database → Store → Prop} (heq : ∀ fs, m' ⟨db, fs⟩ = m ⟨db, fs⟩)
    (h : Acts q K (At db R) m Q E) : Acts q K (At db R) m' Q E := by
  intro s hs
  obtain ⟨hq, rfl, hr⟩ := hs
  have h' := h s ⟨hq, rfl, hr⟩
  rw [← heq s.fs] at h'
  exact h'

/-- What the worker leaves when its work succeeds. -/
structure WorkDone (db d : Database) : Prop where
  immutable : d.immutable = none
  compaction : db.compaction = none → d.compaction = none

/-- Why the work of the worker fails: for a cause, or because an earlier compaction is not
finished. -/
def WorkFailed (F : StorageFormat) (ρ : Regime) (σ : Scene) (q : Prop) (db : Database) (e : Status)
    (d : Database) : Prop :=
  σ.options.compactionOutputSizeLimit ≤ maxUInt64 →
    Cause F ρ q d.contents e ∨ db.compaction ≠ none

/-- The part of the work that comes after the flush. -/
def backgroundCompaction (F : StorageFormat) : Act Unit := do
  let db ← getDb
  if !db.stopBackground ∧ db.mutableTable.isEmpty ∧ db.immutable.isNone ∧
      db.options.level0CompactionTrigger ≤ db.version.levelZero.length then do
    let db' ← Prog.ofExcept (prepareCompaction db)
    modifyDb (fun _ => db')
    continueCompaction F
  else pure ()

theorem backgroundWork_eq (F : StorageFormat) :
    backgroundWork F = (do continueFlush F; backgroundCompaction F) := rfl

/-- From empty MemTables the worker compacts as `CompactLocked` does. -/
theorem compactStart_eq (F : StorageFormat) (himm : db.immutable = none)
    (hmut : db.mutableTable.entries = []) (hw : db.wal ≠ none) (fs : Fs) :
    compactStart F ⟨db, fs⟩ = (do
      let db' ← Prog.ofExcept (prepareCompaction db)
      modifyDb (fun _ => db')
      continueCompaction F : Act Unit) ⟨db, fs⟩ := by
  have hempty : db.mutableTable.isEmpty = true := MemTable.isEmpty_iff.mpr hmut
  have hwal : db.wal.isNone = false := by
    cases h : db.wal with
    | none => exact absurd h hw
    | some w => rfl
  unfold compactStart
  rw [Prog.bind_of_ok (show getDb ⟨db, fs⟩ = (.ok db, ⟨db, fs⟩) from rfl)]
  rw [himm, hempty, hwal]
  rfl

theorem backgroundCompaction_acts (hF : F.Lawful) (hopen : σ.control.state ≠ .closed) :
    Acts q (Remains F σ.format ρ) (At db (Steady F ρ σ db)) (backgroundCompaction F)
      (fun _ d st => Steady F ρ σ d st ∧ (db.immutable = none → d.immutable = none) ∧
        (db.compaction = none → d.compaction = none))
      (fun e d st => Steady F ρ σ d st ∧ WorkFailed F ρ σ q db e d) := by
  apply Acts.getDb_bind
  apply Acts.ite
  · intro hdue
    obtain ⟨-, hempty, hnone, -⟩ := hdue
    have himm : db.immutable = none := Option.isNone_iff_eq_none.mp hnone
    have hmut : db.mutableTable.entries = [] := MemTable.isEmpty_iff.mp hempty
    by_cases hc : db.compaction = none
    · refine Acts.know (fun _ h => h.wal_ne hopen himm hc) (fun hw => ?_)
      apply Acts.congr (fun fs => (compactStart_eq F himm hmut hw fs).symm)
      refine (compactStart_acts hF hopen himm hc hmut).conseq (fun _ _ h => h) ?_ ?_
      · intro _ d st hd
        obtain ⟨h, h1, h2, h3, -⟩ := hd
        exact ⟨h, fun _ => h2, fun _ => h1⟩
      · intro e d st hd
        exact ⟨hd.1, fun hl => Or.inl (hd.2 hl)⟩
    · -- an earlier compaction is in the way
      apply Acts.ofExcept_bind
      · intro db' hok
        exact absurd (prepareCompaction_ready hok).1 hc
      · intro e _ st h
        exact ⟨h, fun _ => Or.inr hc⟩
  · intro _
    exact Acts.pure (fun st h => ⟨h, id, id⟩)

/-- `RunBackgroundWorkLocked` without an unlocked part. -/
theorem backgroundWork_acts (hF : F.Lawful) (hord : ρ.ordered) (hopen : σ.control.state ≠ .closed) :
    Acts q (Remains F σ.format ρ) (At db (Steady F ρ σ db)) (backgroundWork F)
      (fun _ d st => Steady F ρ σ d st ∧ WorkDone db d)
      (fun e d st => Steady F ρ σ d st ∧ WorkFailed F ρ σ q db e d) := by
  rw [backgroundWork_eq]
  apply Acts.bind ((continueFlush_acts hF hord).errors (fun _ _ _ h => ⟨h.1, fun _ => Or.inl h.2⟩))
  intro _
  apply Acts.fix
  intro d
  refine Acts.know (fun _ h => h.2) (fun hdone => ?_)
  have hc : d.compaction = db.compaction := by
    obtain ⟨ts, v, w, rfl⟩ := hdone.others
    rfl
  refine Acts.weaken _ ?_ (fun st h => h.1)
  refine (backgroundCompaction_acts hF hopen).conseq (fun _ _ h => h) ?_ ?_
  · intro _ d' st h
    refine ⟨h.1, h.2.1 hdone.immutable, fun hnone => h.2.2 ?_⟩
    rw [hc, hnone]
  · intro e d' st h
    refine ⟨h.1, fun hl => ?_⟩
    rw [← hc]
    exact h.2 hl

/-- The worker has its table, or the error that publishing it gave. -/
theorem backgroundPublished_acts (hF : F.Lawful) (hord : ρ.ordered)
    (hopen : σ.control.state ≠ .closed) (himm : db.immutable = some imm)
    (hun : imm.versionPublished = false) (hnone : imm.pendingTable = none)
    (result : Except Status SSTableReader) :
    Acts q (Remains F σ.format ρ)
      (At db (fun st => Steady F ρ σ db st ∧
        StageInv F db.format imm.generation imm.memtable q (.done result) st))
      (backgroundPublished F imm.generation result)
      (fun _ d st => Steady F ρ σ d st ∧ WorkDone db d)
      (fun e d st => Steady F ρ σ d st ∧ WorkFailed F ρ σ q db e d) := by
  apply Acts.ofExcept_bind
  · intro t ht
    subst ht
    apply Acts.getDb_bind
    apply Acts.ite
    · intro hother
      rw [himm] at hother
      exact absurd rfl hother
    · intro _
      apply Acts.modifyDb_bind
      rw [himm]
      refine Acts.weaken _ ((backgroundWork_acts hF hord hopen).conseq (fun _ _ h => h) ?_ ?_) ?_
      · intro _ d st h
        exact ⟨h.1, h.2.immutable, h.2.compaction⟩
      · intro e d st h
        exact h
      · intro st h
        obtain ⟨hs, b, hb, hpin, rfl⟩ := h
        have hfmt := hs.inv.format_eq
        rw [hfmt] at hb
        exact ⟨hs.inv.setPending hord himm hun hnone (tableReader_coherent hF hb) rfl rfl
          (hb.pinnedReader hF hpin), hs.tidy.setImmutable himm rfl rfl (by simp)⟩
  · intro e he st h
    subst he
    refine ⟨h.1, fun _ => Or.inl (fun _ => ?_)⟩
    rcases h.2 with hfault | hrefused
    · exact Or.inl hfault
    · exact Or.inr (.table himm hrefused)

/-- The worker puts down the status of its work. -/
theorem backgroundFinish_acts {work : Act Unit} {D : Database → Prop}
    {A : Status → Database → Prop} {E : Status → Database → Store → Prop}
    (hwork : Acts q K (At db R) work (fun _ d st => Steady F ρ σ d st ∧ D d)
      (fun e d st => Steady F ρ σ d st ∧ A e d)) :
    Acts q K (At db R) (backgroundFinish work)
      (fun _ d st => ∃ d' status, Steady F ρ σ d' st ∧
        d = { d' with backgroundStatus := status, backgroundWorkRunning := false } ∧
        ((status = .ok ∧ D d') ∨ A status d')) E := by
  apply Acts.attempt_bind hwork
  · intro _
    apply Acts.fix
    intro d
    exact Acts.modifyDb (fun st h => ⟨d, .ok, h.1, rfl, Or.inl ⟨rfl, h.2⟩⟩)
  · intro e
    apply Acts.fix
    intro d
    exact Acts.modifyDb (fun st h => ⟨d, e, h.1, rfl, Or.inr h.2⟩)

/-! ## Writes beside a publication -/

/-- Two stores whose disks differ in the contents of logs at most. -/
structure Beside (st st' : Store) : Prop where
  dir : st'.disk.dir = st.disk.dir
  fresh : st'.disk.fresh = st.disk.fresh
  files : ∀ δ ∈ st.disk.dir.states, ∀ f j, (∀ n, f ≠ .wal n) → Dir.lookup δ f = some j →
    st'.disk.files j = st.disk.files j

theorem Beside.of_disk (hd : st'.disk = st.disk) : Beside st st' := by
  constructor
  · rw [hd]
  · rw [hd]
  · intro δ _ f j _ _
    rw [hd]

/-- Work on the open log. -/
theorem Beside.setFile {i : Inode} (hw : WalFile i st.disk) (v : Volatile Bytes) :
    Beside st (st.onDisk (·.setFile i v)) := by
  refine ⟨rfl, rfl, fun δ hδ f j hf hl => ?_⟩
  have hne : j ≠ i := by
    intro hj
    rw [hj] at hl
    obtain ⟨n, hn⟩ := hw.named δ hδ f hl
    exact hf n hn
  exact Disk.setFile_files v hne

theorem Temporary.beside {f : FileName} {j : Inode} {v : Volatile Bytes} (hb : Beside st st')
    (hf : ∀ n, f ≠ .wal n) (h : Temporary f j v st) : Temporary f j v st' := by
  constructor
  · show st'.disk.dir.current.lookup f = some j
    rw [hb.dir]
    exact h.lookup
  · rw [hb.files _ (Volatile.current_mem_states _) f j hf h.lookup]
    exact h.files
  · constructor
    · rw [hb.fresh]
      exact h.owned.lt
    · rw [hb.dir]
      exact h.owned.only

theorem Linked.beside {f : FileName} {b : Bytes} (hb : Beside st st') (hf : ∀ n, f ≠ .wal n)
    (h : Linked f b st) : Linked f b st' := by
  obtain ⟨j, hl, hfile⟩ := h.lookup
  refine ⟨j, ?_, ?_⟩
  · show st'.disk.dir.current.lookup f = some j
    rw [hb.dir]
    exact hl
  · rw [hb.files _ (Volatile.current_mem_states _) f j hf hl]
    exact hfile

theorem Pinned.beside {f : FileName} {b : Bytes} (hb : Beside st st') (hf : ∀ n, f ≠ .wal n)
    (h : Pinned f b st) : Pinned f b st' := by
  obtain ⟨j, hl, hfile⟩ := h.states
  refine ⟨j, ?_, ?_⟩
  · rw [hb.dir]
    exact hl
  · have hcur := hl _ (Volatile.current_mem_states _)
    rw [hb.files _ (Volatile.current_mem_states _) f j hf hcur]
    exact hfile

/-- A write leaves what the worker has done so far alone. -/
theorem StageInv.beside {o : FormatOptions} {g : Nat} {m : MemTable} {stage : PublishStage}
    (hb : Beside st st') (h : StageInv F o g m q stage st) : StageInv F o g m q stage st' := by
  have htmp : ∀ n, FileName.sstTmp g ≠ .wal n := fun n hn => by cases hn
  have hsst : ∀ n, FileName.sst g ≠ .wal n := fun n hn => by cases hn
  cases stage with
  | start => trivial
  | write j b => exact ⟨h.1, h.2.beside hb htmp⟩
  | sync j =>
    obtain ⟨b, he, v, hv, ht⟩ := h
    exact ⟨b, he, v, hv, ht.beside hb htmp⟩
  | rename =>
    obtain ⟨b, he, j, ht⟩ := h
    exact ⟨b, he, j, ht.beside hb htmp⟩
  | syncDirectory =>
    obtain ⟨b, he, hl⟩ := h
    exact ⟨b, he, hl.beside hb hsst⟩
  | openReader =>
    obtain ⟨b, he, hp⟩ := h
    exact ⟨b, he, hp.beside hb hsst⟩
  | cleanup e => exact h
  | done r =>
    cases r with
    | error e => exact h
    | ok t =>
      obtain ⟨b, he, hp, ht⟩ := h
      exact ⟨b, he, hp.beside hb hsst, ht⟩

/-- What a write leaves as it was, where an Immutable is in its way. -/
def Leaves (db : Database) (P : Store → Prop) (d : Database) (st : Store) : Prop :=
  d.immutable = db.immutable ∧ d.options = db.options ∧ P st

section

variable {P : Store → Prop} {i : Inode} {w : WalWriter}

theorem writeAll_keeps (hfile : ∀ st v, P st → P (st.onDisk (·.setFile i v))) (b : Bytes) :
    Spec q P (fun _ => True) (writeAll i b) (fun _ _ => True) (fun _ _ => True) := by
  intro s hs
  obtain ⟨hq, hp, -⟩ := hs
  obtain ⟨hq', hst, hall⟩ := hq.next
  have hkeep : ∀ p, P (s.next.2.store.onDisk (·.append i p)) := by
    intro p
    rw [hst]
    exact hfile _ _ hp
  unfold MiniKV.writeAll
  match hn : s.next with
  | (.ok, t) =>
    rw [hn] at hq' hkeep
    dsimp only
    by_cases hlen : (fitting t.store.disk i b).length = b.length
    · rw [if_pos hlen]
      exact ⟨hq'.update _, hkeep _, trivial⟩
    · rw [if_neg hlen]
      exact ⟨hq'.update _, hkeep _, trivial⟩
  | (.fail n, t) =>
    rw [hn] at hq' hkeep
    exact ⟨hq'.update _, hkeep _, trivial⟩
  | (.kill n, t) =>
    rw [hn] at hall hkeep
    exact ⟨fun h => (by cases hall h), hkeep _⟩

theorem syncFile_keeps (hfile : ∀ st v, P st → P (st.onDisk (·.setFile i v))) :
    Spec q P (fun _ => True) (syncFile i) (fun _ _ => True) (fun _ _ => True) :=
  Spec.atomically (fun st hp _ => hfile st _ hp) (fun _ _ _ => trivial)
    (fun _ _ _ _ => ⟨trivial, trivial⟩)

theorem rememberFailure_keeps {call : Io Unit}
    (hcall : Spec q P (fun _ => True) call (fun _ _ => True) (fun _ _ => True)) :
    Acts q P (Leaves db P) (rememberFailure call) (fun _ => Leaves db P)
      (fun _ => Leaves db P) := by
  apply Acts.fix
  intro d
  refine Acts.know (fun _ h => And.intro h.1 h.2.1) (fun hd => ?_)
  have hio : Acts q P (At d (fun st => P st ∧ True)) (io call) (fun _ => At d P)
      (fun _ => At d P) :=
    Acts.io hcall (fun _ h => h) (fun _ _ h _ => ⟨rfl, h⟩) (fun _ _ h _ => ⟨rfl, h⟩)
  refine Acts.weaken (fun st => P st ∧ True) ?_ (fun st h => ⟨h.2.2, trivial⟩)
  apply Acts.attempt_bind hio
  · intro _
    exact Acts.pure (fun st h => ⟨hd.1, hd.2, h⟩)
  · intro e
    apply Acts.modifyDb_bind
    exact Acts.fail (fun st h => ⟨hd.1, hd.2, h⟩)

theorem walAppend_keeps (hfile : ∀ st v, P st → P (st.onDisk (·.setFile w.file v)))
    (hdisk : ∀ st st', st'.disk = st.disk → P st → P st') (r : Record) (mode : SyncMode) :
    Acts q P (Leaves db P) (walAppend F w r mode) (fun _ => Leaves db P)
      (fun _ => Leaves db P) := by
  have hlabel : ∀ {g : Store → Store}, (∀ st, (g st).disk = st.disk) →
      Acts q P (Leaves db P) (io (Prog.modify (Fs.update g))) (fun _ => Leaves db P)
        (fun _ => Leaves db P) := by
    intro g hg
    apply Acts.fix
    intro d
    exact Acts.update (fun st h => ⟨h.1, h.2.1, hdisk st _ (hg st) h.2.2⟩)
  unfold walAppend
  apply Acts.ite
  · intro _
    apply Acts.fix
    intro d
    exact Acts.fail (fun st h => h)
  intro _
  apply Acts.ite
  · intro _
    apply Acts.fix
    intro d
    exact Acts.fail (fun st h => h)
  · intro _
    apply Acts.fix
    intro d
    apply Acts.getDb_bind
    apply Acts.ofExcept_bind
    · intro b _
      have hat : ∀ d' st, At d (Leaves db P d) d' st → Leaves db P d' st := by
        intro d' st h
        rw [h.1]
        exact h.2
      refine Acts.bind (S := fun _ => Leaves db P) ((hlabel (g := Store.label (.inDoubt r))
        (fun _ => rfl)).pre hat) (fun _ => ?_)
      refine Acts.bind (rememberFailure_keeps (writeAll_keeps hfile b)) (fun _ => ?_)
      refine Acts.when (S := Leaves db P) (fun _ => ?_) (fun _ _ _ h => h) (hlabel (fun _ => rfl))
      exact rememberFailure_keeps (syncFile_keeps hfile)
    · intro e _ st h
      exact h

/-- The end of a write while an Immutable waits for the worker: it changes the log, the
Mutable and the statuses only. -/
theorem writeFinish_keeps (hfile : ∀ w, db.wal = some w → ∀ st v, P st →
      P (st.onDisk (·.setFile w.file v)))
    (hdisk : ∀ st st', st'.disk = st.disk → P st → P st')
    (hbg : db.options.backgroundMaintenance = true) (himm : db.immutable ≠ none)
    (type : ValueType) (key value : Bytes) (mode : SyncMode) :
    Acts q P (At db P) (writeFinish F type key value mode) (fun _ => Leaves db P)
      (fun _ => Leaves db P) := by
  have hstop : ∀ e, Acts q P (At db P) (Prog.fail e : Act Unit) (fun _ => Leaves db P)
      (fun _ => Leaves db P) := fun e => Acts.fail (fun st h => ⟨rfl, rfl, h⟩)
  apply Acts.getDb_bind
  refine Acts.ite (fun _ => hstop _) (fun _ => Acts.ite (fun _ => hstop _)
    (fun _ => Acts.ite (fun _ => hstop _) (fun _ => ?_)))
  cases hw : db.wal with
  | none => exact hstop _
  | some w =>
    apply Acts.modifyDb_bind
    have hat : ∀ d st, At { db with lastSequence := db.lastSequence + 1 } P d st →
        Leaves db P d st := by
      intro d st h
      rw [h.1]
      exact ⟨rfl, rfl, h.2⟩
    apply Acts.attempt_bind ((walAppend_keeps (hfile w hw) hdisk _ mode).pre hat)
    · intro _
      apply Acts.bind (S := fun _ => Leaves db P)
      · apply Acts.fix
        intro d
        apply Acts.getDb_bind
        split
        · exact Acts.modifyDb (fun st h => h)
        · apply Acts.modifyDb_bind
          exact Acts.fail (fun st h => h)
      · intro _
        apply Acts.fix
        intro d
        refine Acts.know (fun _ h => And.intro h.1 h.2.1) (fun hd => ?_)
        have hskip : Acts q P (At d (Leaves db P d)) (pure () : Act Unit) (fun _ => Leaves db P)
            (fun _ => Leaves db P) := Acts.pure (fun st h => h)
        apply Acts.getDb_bind
        refine Acts.ite (fun _ => hskip) (fun _ => Acts.ite (fun hfore => ?_)
          (fun _ => Acts.ite (fun _ => hskip) (fun hfree => ?_)))
        · rw [hd.2, hbg] at hfore
          cases hfore
        · rw [hd.1] at hfree
          exact absurd (Option.isSome_iff_ne_none.mpr himm) hfree
    · intro e
      apply Acts.fix
      intro d
      apply Acts.modifyDb_bind
      exact Acts.fail (fun st h => h)

/-- What the worker has done so far on its table, with the log beside it. -/
def Reached (F : StorageFormat) (q : Prop) (db : Database) (imm : ImmutableGeneration)
    (stage : PublishStage) (st : Store) : Prop :=
  (∀ w, db.wal = some w → WalFile w.file st.disk) ∧
    StageInv F db.format imm.generation imm.memtable q stage st

theorem writeFinish_beside (hbg : db.options.backgroundMaintenance = true)
    (himm : db.immutable = some imm) (stage : PublishStage) (type : ValueType)
    (key value : Bytes) (mode : SyncMode) :
    Acts q (Reached F q db imm stage) (At db (Reached F q db imm stage))
      (writeFinish F type key value mode) (fun _ => Leaves db (Reached F q db imm stage))
      (fun _ => Leaves db (Reached F q db imm stage)) := by
  refine writeFinish_keeps ?_ ?_ hbg (by rw [himm]; simp) type key value mode
  · intro w hw st v h
    refine ⟨fun w' hw' => ⟨(h.1 w' hw').lt, (h.1 w' hw').named⟩, ?_⟩
    exact h.2.beside (.setFile (h.1 w hw) v)
  · intro st st' hd h
    refine ⟨?_, h.2.beside (.of_disk hd)⟩
    rw [hd]
    exact h.1

end

end

end MiniKV
