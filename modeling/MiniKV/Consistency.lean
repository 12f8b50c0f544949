import MiniKV.Runs
import MiniKV.Codec.EndToEnd
import MiniKV.Codec.Portable

/-!
# Internal consistency in foreground mode

The code checks its own members in several places, and reports a corruption when
they disagree. In foreground mode none of these reports is reachable: the readers
follow the Version, the generations are in step, sequence numbers rise from the
tables over the Immutable to the Mutable, and the edit of a flush is accepted.
-/

namespace MiniKV

open Lib

/-- `Version::Apply` accepts the edit of `ContinueFlush`, as long as there is a Version id. A
flush whose edit was rejected would leave its Immutable with a table that is not published. -/
def Database.AcceptsEdit (db : Database) : Prop :=
  ∀ imm t, db.immutable = some imm → imm.versionPublished = false → imm.pendingTable = some t →
    db.version.id ≠ maxUInt64 → ∃ v, db.version.apply db.format (flushEdit db imm t) = .ok v

/-- The members agree with each other. -/
structure Database.Consistent (db : Database) : Prop where
  aligned : Aligned db.version db.tables
  ascending : db.tables.Pairwise (fun a b => a.generation < b.generation)
  generation : (∀ imm, db.immutable = some imm → imm.versionPublished = true) →
    db.mutableGeneration = db.version.nextFileNumber
  tables : ∀ r ∈ tableRecords db.tables, r.sequence ≤ db.version.lastSequence
  immutable : ∀ imm, db.immutable = some imm → imm.versionPublished = false →
    ∀ s ∈ imm.memtable.entries, db.version.lastSequence < s.sequence ∧
      s.sequence ≤ db.lastSequence ∧ ∀ r ∈ db.mutableTable.entries, s.sequence < r.sequence
  mutable : ∀ r ∈ db.mutableTable.entries, db.version.lastSequence < r.sequence ∧
    r.sequence ≤ db.lastSequence

section

variable {F : StorageFormat} {ρ : Regime} {σ : Scene} {db : Database} {st : Store}

theorem ContentsInv.acceptsEdit (h : ContentsInv ρ db.contents) (hord : ρ.ordered)
    (hpl : ρ.planned) : db.AcceptsEdit := by
  intro imm t himm hun hp hid
  obtain ⟨hc, hgen, hrec⟩ := ((h.order hord).immutable imm himm).pending t hp
  exact h.flush_apply hord hpl himm hun hc hgen hrec hid

/-- File numbers rise strictly. -/
theorem ContentsInv.ascending (h : ContentsInv ρ db.contents) (ha : Aligned db.version db.tables) :
    db.tables.Pairwise (fun a b => a.generation < b.generation) := by
  have hle : (db.version.tables.map VersionTable.generation).Pairwise (· ≤ ·) :=
    List.pairwise_map.mpr h.sorted
  have hlt : (db.version.tables.map VersionTable.generation).Pairwise (· < ·) :=
    (hle.and h.version.distinct).imp (fun ⟨h1, h2⟩ => lt_of_le_of_ne h1 h2)
  rw [ha.generations] at hlt
  exact List.pairwise_map.mp hlt

/-- No table has a sequence number above that of the Version. -/
theorem ContentsInv.table_le (h : ContentsInv ρ db.contents) (ha : Aligned db.version db.tables) :
    ∀ r ∈ tableRecords db.tables, r.sequence ≤ db.version.lastSequence := by
  intro r hr
  obtain ⟨t, ht, hrt⟩ := mem_tableRecords.mp hr
  obtain ⟨vt, hvt, hm⟩ := ha.exists_table ht
  have hmax := h.version.lastSequence vt hvt
  rw [hm] at hmax
  exact ((h.coherent t ht).le_maximumSequence hrt).trans hmax

theorem Steady.consistent (h : Steady F ρ σ db st) (hd : ρ.durable) : db.Consistent := by
  obtain ⟨hord, hpl⟩ := ρ.durable_imp hd
  have hinv := h.inv.contents
  have horder := hinv.order hord
  have ha : Aligned db.version db.tables := (hinv.planned hpl).aligned
  obtain ⟨T, I, D, M, X, hstored⟩ := (h.inv.stored hd).current
  refine ⟨ha, hinv.ascending ha, fun hpub => (hstored.thawed hpub).2.2.symm, hinv.table_le ha, ?_,
    fun r hr => ⟨(horder.newest r hr).1, horder.last r hr⟩⟩
  intro imm himm hun s hs
  have hi := horder.immutable imm himm
  have hmem : s ∈ db.contents.immutableRecords := by
    have himm' : db.contents.immutable = some imm := himm
    rw [Contents.immutableRecords, himm']
    exact hs
  exact ⟨(hi.unpublished hun s hs).1, hi.last s hs, fun r hr => (horder.newest r hr).2.2 s hmem⟩

end

/-! ## Runs -/

/-- The output limit of a compaction is a word. -/
def WorldEvent.Words : WorldEvent → Prop
  | .openDatabase o _ => o.compactionOutputSizeLimit ≤ maxUInt64
  | _ => True

/-- What holds in every state of a run, the statuses included. -/
structure Orderly (F : StorageFormat) (w : World) : Prop where
  sound : Sound F (accountFrom [] []) w
  sane : ∀ inst, w.current = some inst → inst.db.control.Sane
  limit : ∀ inst, w.current = some inst →
    inst.db.options.compactionOutputSizeLimit ≤ maxUInt64

section

variable {F : StorageFormat} {w : World} {inst : Instance}

theorem orderly_empty : Orderly F World.empty := by
  refine ⟨Sound.empty (o := {}) trivial ⟨rfl, rfl⟩, fun inst hc => ?_, fun inst hc => ?_⟩
  · cases hc
  · cases hc

theorem Orderly.step (hF : F.Lawful) (hP : F.Portable) (h : Orderly F w) {e : WorldEvent}
    (he : e.Foreground) (hwords : e.Words) : Orderly F (w.step F e) := by
  obtain ⟨hs, harr⟩ := h.sound.step hF hP foreground_foreground (fun _ _ _ _ _ _ _ => trivial) he
    (foreground_within e)
  refine ⟨hs, fun inst' hi => ?_, fun inst' hi => ?_⟩
  all_goals
    cases harr inst' hi with
    | stayed hc hadv => ?_
    | opened hc hop hH hev => ?_
  · exact hadv.sane (h.sane _ hc)
  · obtain ⟨r, i, -, -, hdb⟩ := hop.members
    rw [hdb]
    exact ⟨nofun, nofun⟩
  · rw [show inst'.db.options = _ from hadv.options]
    exact h.limit _ hc
  · obtain ⟨r, i, -, -, hdb⟩ := hop.members
    obtain ⟨script, rfl⟩ := hev
    rw [hdb]
    exact hwords

/-- Every step of an open instance leaves a database that accepts its edit, and returns no
corruption. -/
theorem Orderly.proceeds (hF : F.Lawful) (hP : F.Portable) (hplain : F.Plain) (h : Orderly F w)
    (hc : w.current = some inst) {a : Action} {script : List Outcome} {ret : Returned}
    {inst' : Instance} {fs : Fs}
    (hstep : inst.step F a { store := w.store, script := script } = (.ok (ret, inst'), fs)) :
    inst'.db.AcceptsEdit ∧ ∀ e, ret = some (.error e) → e.code ≠ .corruption := by
  have hs := h.sound.steady inst hc
  have hpost := (h.sound.fore inst hc).step hF hP trivial (h.sound.open' inst hc)
    a (fun _ _ _ _ _ => trivial) { store := w.store, script := script } hs
  rw [hstep] at hpost
  obtain ⟨hnext, hret⟩ := hpost
  refine ⟨?_, fun e he => hret e he ⟨hplain, trivial, trivial, h.sane inst hc, h.limit inst hc⟩⟩
  cases hnext with
  | running _ _ hs' _ => exact hs'.inv.contents.acceptsEdit trivial trivial
  | closed _ _ hcontents => exact hcontents.acceptsEdit trivial trivial

end

/-- In every run of a directory in foreground mode the members of the open database are
consistent; no call returns a corruption, and every flush finds its edit accepted. -/
theorem foreground_consistent {shape : BloomShape} (hshape : shape.Plain) {es : List WorldEvent}
    (hes : ∀ e ∈ es, e.Foreground ∧ e.Words) {w : World}
    (hw : w = World.empty.run (fileFormat shape) es) {inst : Instance}
    (hinst : w.current = some inst) :
    inst.db.Consistent ∧ inst.db.AcceptsEdit ∧
      ∀ a script ret inst' fs, inst.step (fileFormat shape) a { store := w.store, script := script } =
          (.ok (ret, inst'), fs) →
        inst'.db.AcceptsEdit ∧ ∀ e, ret = some (.error e) → e.code ≠ .corruption := by
  have hF := fileFormat_lawful shape
  have hP := fileFormat_portable shape
  have horderly : Orderly (fileFormat shape) w := by
    rw [hw]
    exact World.run_keeps (fun _ _ he h => h.step hF hP he.1 he.2) hes orderly_empty
  have hs := horderly.sound.steady inst hinst
  exact ⟨hs.consistent trivial, hs.inv.contents.acceptsEdit trivial trivial,
    fun a script ret inst' fs h => horderly.proceeds hF hP (fileFormat_plain hshape) hinst h⟩

theorem byteShape_plain : byteShape.Plain := nofun

/-- Open, write and flush. -/
def flushedOnce : List WorldEvent :=
  [.openDatabase {} [], .act (.call (.put [1] [7] .sync)) [], .act (.call .flush) []]

/-- The hypotheses hold after a flush, with a table in the Version. -/
theorem foreground_consistent_flushed : ∃ inst,
    (World.empty.run (fileFormat byteShape) flushedOnce).current = some inst ∧
      inst.db.version.tables.length = 1 ∧ inst.db.Consistent := by
  have h : ((World.empty.run (fileFormat byteShape) flushedOnce).current.any fun inst =>
      inst.db.version.tables.length = 1) = true := by decide +kernel
  obtain ⟨inst, hinst, htables⟩ := (Option.any_eq_true _ _).mp h
  have hevents : ∀ e ∈ flushedOnce, e.Foreground ∧ e.Words := by
    simp [flushedOnce, WorldEvent.Foreground, WorldEvent.Words, maxUInt64]
  exact ⟨inst, hinst, of_decide_eq_true htables,
    (foreground_consistent byteShape_plain hevents rfl hinst).1⟩

end MiniKV
