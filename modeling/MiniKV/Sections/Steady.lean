import MiniKV.State.Steps

/-!
# What holds whenever the lock is free

`Steady` is the invariant of a database between two sections. A section that
ends with an error has kept it as well, and has a cause: a call of the
environment failed, or a limit was met.
-/

namespace MiniKV

open Lib

/-- A limit that maintenance runs into without any fault. -/
inductive Exhausted (F : StorageFormat) (x : Contents) (e : Status) : Prop
  | versionId (h : x.version.id = maxUInt64)
      (status : e = .invalidArgument "Version id space is exhausted")
  | generation (h : x.mutableGeneration = maxUInt64)
      (status : e = .invalidArgument "MemTable generation space is exhausted")
  | table {imm : ImmutableGeneration} (h : x.immutable = some imm)
      (refused : TableRefused F x.format imm.generation imm.memtable e)
  | manifest {v : Version} {ts : List SSTableReader} (h : Candidate x v ts)
      (refused : F.encodeManifest x.format v = .error e)
  | outputs {c : CompactionState} (h : x.compaction = some c)
      (refused : OutputsRefused F x.format c.firstOutputFileNumber c.outputMemtables e)
  | bytes (status : e = .invalidArgument "compaction byte count overflows")
  | numbers (status : e = .invalidArgument "compaction file numbers overflow")

/-- A status that blames an argument or the environment. -/
def Status.Outer (e : Status) : Prop := e.code = .invalidArgument ∨ e.code = .ioError

/-- What is known of the members beside the invariant of the contents. -/
structure Database.Tidy (ρ : Regime) (db : Database) : Prop where
  advanced : ρ.planned → ∀ c, db.compaction = some c → c.walGenerationAdvanced = true →
    c.versionPublished = true ∧ db.wal = none ∧ db.immutable = none
  /-- A database without a log is in the middle of a flush or a compaction, or closed. -/
  detached : db.state ≠ .closed → db.wal = none →
    db.immutable ≠ none ∨ ∃ c, db.compaction = some c ∧ c.walGenerationAdvanced = true
  /-- Where no log is opened early, there is none beside an Immutable. -/
  solo : ρ.single → db.immutable ≠ none → db.wal = none
  writer : ∀ w, db.wal = some w → w.status = .ok ∨ w.status.Outer
  published : ∀ c, db.compaction = some c → c.versionPublished = true →
    c.candidateReady = true ∧ (c.outputMemtables = [] ∨ c.publishedOutputs ≠ [])
  removable : ∀ c, db.compaction = some c → ∀ f ∈ c.cleanupPaths, FileName.manifest ≠ f

/-- What holds of a database whenever its lock is free. -/
structure Steady (F : StorageFormat) (ρ : Regime) (σ : Scene) (db : Database) (st : Store) :
    Prop where
  inv : Inv F ρ σ db st
  tidy : db.Tidy ρ

/-- Why a section ends with an error, if nothing is written beside a waiting compaction. -/
def Cause (F : StorageFormat) (ρ : Regime) (q : Prop) (x : Contents) (e : Status) : Prop :=
  ρ.planned → Fault q e ∨ Exhausted F x e

/-- A section has failed: everything holds, and there is a cause. -/
def Failed (F : StorageFormat) (ρ : Regime) (σ : Scene) (q : Prop) (e : Status) (d : Database)
    (st : Store) : Prop :=
  Steady F ρ σ d st ∧ Cause F ρ q d.contents e

section

variable {F : StorageFormat} {ρ : Regime} {σ : Scene} {db : Database} {st : Store} {q : Prop}

/-- A change of the members that shows in no part of the scene. -/
theorem Inv.scene_of (h : Inv F ρ σ db st) {db' : Database} (ho : db'.options = db.options)
    (hv : db'.contents.view = db.contents.view) (hl : db'.lastSequence = db.lastSequence)
    (hc : db'.control = db.control) : sceneOf db' st = σ := by
  rw [← h.scene, sceneOf, sceneOf, ho, hv, hl, hc]

/-- With nothing frozen the next log may be opened. -/
theorem StoredIn.sealed {x : Contents} {H : List Label} {m : Image} (h : StoredIn F ρ x none H m)
    (hpub : ∀ imm, x.immutable = some imm → imm.versionPublished = true) :
    StoredSealed F ρ x H m := by
  obtain ⟨T, I, D, M, X, hs⟩ := h
  obtain ⟨rfl, rfl, -⟩ := hs.thawed hpub
  exact ⟨T, [], M, X, hs, ρ.seals_nil⟩

theorem Inv.sealed (h : Inv F ρ σ db st)
    (hpub : ∀ imm, db.immutable = some imm → imm.versionPublished = true) (hw : db.wal = none)
    (hd : ρ.durable) : Everywhere (StoredSealed F ρ db.contents st.history) st := by
  refine (h.stored hd).mono (fun m hm => ?_)
  rw [hw] at hm
  exact hm.sealed hpub

/-- A change of the Immutable to another one. -/
theorem Database.Tidy.setImmutable {imm : ImmutableGeneration} (h : db.Tidy ρ)
    (himm : db.immutable = some imm) {d : Database} (hc : d.compaction = db.compaction)
    (hw : d.wal = db.wal) (hi : d.immutable ≠ none) : d.Tidy ρ := by
  refine ⟨fun hpl c hc' hadv => ?_, fun _ _ => Or.inl hi, fun hs _ => ?_,
    by rw [hw]; exact h.writer, by rw [hc]; exact h.published, by rw [hc]; exact h.removable⟩
  · rw [hc] at hc'
    have hnone := (h.advanced hpl c hc' hadv).2.2
    rw [himm] at hnone
    cases hnone
  · rw [hw]
    exact h.solo hs (by rw [himm]; simp)

/-! ## What an error says -/

theorem Status.Outer.not_ok {e : Status} (h : e.Outer) : e.isOk = false := by
  rcases h with h | h
  · simp [Status.isOk, h]
  · simp [Status.isOk, h]

theorem Status.Outer.not_corruption {e : Status} (h : e.Outer) : e.code ≠ .corruption := by
  rcases h with h | h
  · rw [h]
    decide
  · rw [h]
    decide

theorem TooLong.outer {b : Bytes} {e : Status} (h : TooLong b e) : e.Outer := by
  rw [h.2]
  exact Or.inr rfl

theorem TableRefused.outer (hP : F.Plain) {o : FormatOptions} {g : Nat} {m : MemTable} {e : Status}
    (h : TableRefused F o g m e) : e.Outer := by
  rcases h with h | ⟨b, -, h⟩
  · exact Or.inl (hP.encodeTable_error h)
  · exact h.outer

theorem prepareOutputs_error (hP : F.Plain) {o : FormatOptions} {n : Nat} {ms : List MemTable}
    {e : Status} (h : prepareOutputs F o n ms = .error e) : e.Outer := by
  induction ms generalizing n with
  | nil => cases h
  | cons m ms ih =>
    unfold prepareOutputs at h
    split at h
    · rename_i henc
      rw [← Except.error.inj h]
      exact Or.inl (hP.encodeTable_error henc)
    · split at h
      · rename_i hrest
        rw [Except.error.inj h] at hrest
        exact ih hrest
      · cases h

theorem OutputsRefused.outer (hP : F.Plain) {o : FormatOptions} {n : Nat} {ms : List MemTable}
    {e : Status} (h : OutputsRefused F o n ms e) : e.Outer := by
  rcases h with h | ⟨ps, -, p, -, h⟩
  · exact prepareOutputs_error hP h
  · exact h.outer

theorem Candidate.valid {x : Contents} {v : Version} {ts : List SSTableReader}
    (h : Candidate x v ts) (hinv : ContentsInv ρ x) : v.Valid x.format := by
  cases h with
  | flush _ _ _ happly => exact (flushedVersion_of_apply hinv.sorted happly).valid
  | compaction hc hun hready => exact ((hinv.pending _ hc hun).ready hready).valid

theorem Exhausted.outer (hP : F.Plain) {x : Contents} (hinv : ContentsInv ρ x) {e : Status}
    (h : Exhausted F x e) : e.Outer := by
  cases h with
  | versionId _ he => rw [he]; exact Or.inl rfl
  | generation _ he => rw [he]; exact Or.inl rfl
  | table _ he => exact he.outer hP
  | manifest hc he => exact Or.inl (hP.encodeManifest_error (hc.valid hinv) he)
  | outputs _ he => exact he.outer hP
  | bytes he => rw [he]; exact Or.inl rfl
  | numbers he => rw [he]; exact Or.inl rfl

theorem Cause.outer (hP : F.Plain) (hpl : ρ.planned) {x : Contents} (hinv : ContentsInv ρ x)
    {e : Status} (h : Cause F ρ q x e) : e.Outer := by
  rcases h hpl with h | h
  · exact Or.inr h.io
  · exact h.outer hP hinv

end

end MiniKV
