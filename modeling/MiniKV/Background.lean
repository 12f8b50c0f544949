import MiniKV.Modes
import MiniKV.Durability

/-!
# Durability in both modes

The directory is opened with a worker or without one. Each frozen log has been
synced by the write that filled it, nothing is written beside a compaction that
waits for its publication, and no `Flush` or `Compact` wakes up in a database
whose `Close` has failed.
Then the next `Open` without a fault returns a database that shows the writes of
the history in their order: every synced one, and after a crash perhaps without
the last ones that were not.
-/

namespace MiniKV

open Lib

/-! ## What is left of a history -/

/-- The records of all appends, oldest first. -/
def attempts : List Label → List Record
  | [] => []
  | .appended r _ :: H => attempts H ++ [r]
  | .inDoubt r :: H => attempts H ++ [r]
  | .crashed :: H => attempts H

/-- The records that are left of a history: some of those that were appended, in their order,
with each one that was synced, and each one that was appended and no crash followed. -/
structure Survivors (H : List Label) (rs : List Record) : Prop where
  attempted : rs.Sublist (attempts H)
  synced : ∀ r, .appended r .sync ∈ H → r ∈ rs
  uncrashed : ∀ new old r mode, H = new ++ .appended r mode :: old → .crashed ∉ new → r ∈ rs

section

variable {κ : Usage} {H : List Label} {A : List Entry}

theorem Admits.attempted (h : Admits κ H A) (hstart : ∀ H A, κ.origin H A → H = [] ∧ A = []) :
    (recordsOf A).Sublist (attempts H) := by
  induction h with
  | origin ho =>
    obtain ⟨rfl, rfl⟩ := hstart _ _ ho
    exact List.Sublist.refl _
  | appended _ _ ih =>
    rw [recordsOf_append]
    exact ih.append (List.Sublist.refl _)
  | doubted _ _ ih => exact ih.trans (List.sublist_append_left _ _)
  | kept _ _ ih =>
    rw [recordsOf_append]
    exact ih.append (List.Sublist.refl _)
  | crashed _ _ ih =>
    rw [recordsOf_settled]
    rw [recordsOf_append] at ih
    exact (List.sublist_append_left _ _).trans ih

/-- What was synced is on stable storage. -/
theorem Admits.synced_mem (h : Admits κ H A) (hstart : ∀ H A, κ.origin H A → H = [] ∧ A = [])
    {r : Record} (hr : .appended r .sync ∈ H) : ⟨r, true⟩ ∈ A := by
  induction h with
  | origin ho =>
    rw [(hstart _ _ ho).1] at hr
    cases hr
  | @appended H A s mode _ _ ih =>
    rcases List.mem_cons.mp hr with heq | hr
    · cases heq
      exact List.mem_append_right _ (List.mem_singleton.mpr rfl)
    · exact List.mem_append_left _ (ih hr)
  | doubted _ _ ih =>
    rcases List.mem_cons.mp hr with heq | hr
    · cases heq
    · exact ih hr
  | kept _ _ ih =>
    rcases List.mem_cons.mp hr with heq | hr
    · cases heq
    · exact List.mem_append_left _ (ih hr)
  | @crashed H L S _ hS ih =>
    rcases List.mem_cons.mp hr with heq | hr
    · cases heq
    · -- it is not in the part that is lost
      rcases List.mem_append.mp (ih hr) with hL | hlost
      · exact List.mem_map.mpr ⟨_, hL, rfl⟩
      · cases hS _ hlost

theorem Admits.uncrashed_mem (h : Admits κ H A)
    (hstart : ∀ H A, κ.origin H A → H = [] ∧ A = []) {new old : List Label} {r : Record}
    {mode : SyncMode} (hH : H = new ++ .appended r mode :: old) (hno : .crashed ∉ new) :
    r ∈ recordsOf A := by
  induction h generalizing new with
  | origin ho =>
    rw [(hstart _ _ ho).1] at hH
    exact absurd hH (by simp)
  | @appended H A s m _ _ ih =>
    rw [recordsOf_append]
    cases new with
    | nil =>
      cases hH
      exact List.mem_append_right _ (List.mem_singleton.mpr rfl)
    | cons l new =>
      obtain ⟨-, hH⟩ := List.cons.inj hH
      exact List.mem_append_left _ (ih hH (fun hc => hno (List.mem_cons_of_mem _ hc)))
  | doubted _ _ ih =>
    cases new with
    | nil => cases hH
    | cons l new =>
      obtain ⟨-, hH⟩ := List.cons.inj hH
      exact ih hH (fun hc => hno (List.mem_cons_of_mem _ hc))
  | kept _ _ ih =>
    rw [recordsOf_append]
    cases new with
    | nil => cases hH
    | cons l new =>
      obtain ⟨-, hH⟩ := List.cons.inj hH
      exact List.mem_append_left _ (ih hH (fun hc => hno (List.mem_cons_of_mem _ hc)))
  | crashed _ _ _ =>
    cases new with
    | nil => cases hH
    | cons l new =>
      obtain ⟨hl, -⟩ := List.cons.inj hH
      rw [← hl] at hno
      exact absurd List.mem_cons_self hno

theorem Admits.survivors (h : Admits κ H A)
    (hstart : ∀ H A, κ.origin H A → H = [] ∧ A = []) : Survivors H (recordsOf A) where
  attempted := h.attempted hstart
  synced := fun r hr => List.mem_map.mpr ⟨⟨r, true⟩, h.synced_mem hstart hr, rfl⟩
  uncrashed := fun _ _ _ _ hH hno => h.uncrashed_mem hstart hH hno

end

/-! ## The conditions on a run -/

/-- A write of the record freezes the Mutable. -/
def Database.freezes (db : Database) (r : Record) : Bool :=
  db.options.backgroundMaintenance && db.immutable.isNone &&
    decide (db.options.memtableSizeLimit ≤ (db.mutableTable.insert r).approximateDataSize)

/-- A compaction waits for its publication, beside a worker that has not failed. -/
def Database.compactionWaits (db : Database) : Bool :=
  db.options.backgroundMaintenance && db.backgroundStatus.isOk &&
    db.compaction.any (fun c => !c.versionPublished)

/-- The step keeps to the protocol of the logs: no write is made beside a compaction that waits,
and if there may be crashes, a write that freezes its log syncs it; no `Flush` or `Compact` wakes
up in a closed database that has something left to write. -/
def disciplined (crashes : Bool) (w : World) : WorldEvent → Bool
  | .act a _ => w.current.all (fun inst =>
      (inst.carries a).all (fun write => !inst.db.compactionWaits &&
        (!crashes || !inst.db.freezes write.1 || decide (write.2 = .sync))))
  | .actClosed position a _ => w.closed[position]?.all (fun inst => !inst.wakes a)
  | .crash _ _ => crashes
  | _ => true

/-- Every step of a run passes a check in the state it is taken in. -/
def World.along (F : StorageFormat) (check : World → WorldEvent → Bool) :
    World → List WorldEvent → Bool
  | _, [] => true
  | w, e :: es => check w e && World.along F check (w.step F e) es

/-- A directory that is used with one format, in both modes. -/
def shared (crashes : Prop) (o : FormatOptions) : Regime where
  crashes := crashes
  single := False
  formats := fun o' => o' = o
  origin := fun H A => H = [] ∧ A = []
  writes := fun _ _ _ => True
  ordered := True
  planned := True
  durable := True
  traced := False
  durable_imp := fun _ => ⟨trivial, trivial⟩
  traced_imp := False.elim
  single_imp := False.elim

section

variable {F : StorageFormat} {crashes : Bool} {o : FormatOptions} {w : World}

theorem Database.freezes_iff {db : Database} {r : Record} :
    db.freezes r = true ↔ db.Freezes r := by
  simp only [Database.freezes, Bool.and_eq_true, decide_eq_true_eq, Option.isNone_iff_eq_none]
  constructor
  · intro h
    exact ⟨h.1.1, h.1.2, h.2⟩
  · intro h
    exact ⟨⟨h.background, h.immutable⟩, h.full⟩

theorem Database.published_of_not_waits {db : Database} (h : db.compactionWaits = false)
    (hbg : db.options.backgroundMaintenance = true) (hok : db.backgroundStatus.isOk = true)
    {c : CompactionState} (hc : db.compaction = some c) : c.versionPublished = true := by
  simp only [Database.compactionWaits, hbg, hok, hc, Option.any_some, Bool.true_and] at h
  simpa using h

/-- The conditions are those that the invariant asks for. -/
theorem disciplined_allows {e : WorldEvent} (he : disciplined crashes w e = true)
    (ho : e.Within (· = o)) : (shared (crashes = true) o).Allows w e := by
  cases e with
  | openDatabase o' script => exact ⟨ho, fun _ => id⟩
  | act a script =>
    intro inst hc r mode hcarries
    unfold disciplined at he
    simp only [hc, hcarries, Option.all_some] at he
    obtain ⟨hwaits, hseal⟩ := Bool.and_eq_true_iff.mp he
    refine ⟨trivial, fun _ hbg hok c hc' => ?_, fun hf _ => ⟨fun hcrash => ?_, id⟩⟩
    · exact Database.published_of_not_waits (by simpa using hwaits) hbg hok hc'
    · have hcrash : crashes = true := hcrash
      rw [hcrash, Database.freezes_iff.mpr hf] at hseal
      simpa using hseal
  | actClosed position a script =>
    intro inst hi
    unfold disciplined at he
    simpa only [hi, Option.all_some, Bool.not_eq_true'] using he
  | kill => trivial
  | drop position => trivial
  | crash directory cut => exact he

theorem World.along_allows {es : List WorldEvent}
    (hes : World.along F (disciplined crashes) w es = true)
    (ho : ∀ e ∈ es, e.Within (· = o)) :
    World.Along F (shared (crashes = true) o).Allows w es := by
  induction es generalizing w with
  | nil => trivial
  | cons e es ih =>
    obtain ⟨he, hes⟩ := Bool.and_eq_true_iff.mp hes
    exact ⟨disciplined_allows he (ho e List.mem_cons_self),
      ih hes (fun x hx => ho x (List.mem_cons_of_mem _ hx))⟩

/-- What holds after a run that keeps to the protocol. -/
theorem World.along_held {shape : BloomShape} {es : List WorldEvent}
    (hes : World.empty.along (fileFormat shape) (disciplined crashes) es = true)
    (ho : ∀ e ∈ es, e.Within (· = o)) (hw : w = World.empty.run (fileFormat shape) es) :
    Held (fileFormat shape) (shared (crashes = true) o) w := by
  have hempty : Held (fileFormat shape) (shared (crashes = true) o) World.empty :=
    .empty (o := o) rfl ⟨rfl, rfl⟩
  rw [hw]
  exact hempty.run (fileFormat_lawful shape) (fileFormat_portable shape) trivial id
    (World.along_allows hes ho)

/-- `Open` with no fault on a directory that is used in both modes. -/
theorem Kept.opens_shared (hF : F.Lawful) (hP : F.Portable) {o : Options}
    (hacc : o.accepted = true) {st : Store}
    (h : Kept F (shared (crashes = true) o.toFormatOptions).toUsage st) {script : List Outcome}
    (hquiet : ∀ x ∈ script, x = Outcome.ok) :
    ∃ db result fs rs, openWithEnvironment F o { store := st, script := script } =
        (.ok (db, result), fs) ∧ Survivors st.history rs ∧
      (∀ k, ValidKey o.toFormatOptions k → Answers (applyLog noValues rs k) (db.get k)) ∧
      ∀ r ∈ rs, r.sequence ≤ db.lastSequence := by
  have hopen := openWithEnvironment_kept (q := True) (H := st.history) (o := o) hF hP rfl
    { store := st, script := script } ⟨fun _ => hquiet, h, rfl⟩
  match hm : openWithEnvironment F o { store := st, script := script } with
  | (.ok (db, result), fs) =>
    rw [hm] at hopen
    obtain ⟨-, hk, hH, o₀, v, ts, T, I, M, hop⟩ := hopen
    have hinv := hop.contentsInv (ρ := shared (crashes = true) o.toFormatOptions) hF hP
    have hview := (hop.stored hP).view_eq hinv trivial
    have hopt : db.options = o := congrArg Contents.options hop.contents_eq
    refine ⟨db, result, fs, _, rfl, hop.restored.loaded.admits.survivors (fun _ _ ho => ho),
      fun k hk => ?_, hop.sequence_le⟩
    rw [← hview]
    apply Database.get_answers hinv hop.state.1
    rw [Database.format, hopt]
    exact hk
  | (.error e, fs) =>
    rw [hm] at hopen
    exact absurd ⟨⟨trivial, fun _ ho => ho⟩, hacc⟩ hopen.2.2
  | (.killed, fs) =>
    rw [hm] at hopen
    exact absurd trivial hopen.1

end

/-- In every run of a directory that is used with one format, in both modes, with writes that are
synced or not, that keeps to the protocol, whatever calls fail and wherever a process dies or, if
frozen logs are synced, the machine crashes: the next `Open` without a fault, in either mode,
returns a database that shows what is left of the history, and gives the next write a larger
sequence number than any record that is left. -/
theorem shared_durable {shape : BloomShape} {crashes : Bool} {o : Options}
    {es : List WorldEvent}
    (hes : World.empty.along (fileFormat shape) (disciplined crashes) es = true)
    (ho : ∀ e ∈ es, e.Within (· = o.toFormatOptions)) {w : World}
    (hw : w = World.empty.run (fileFormat shape) es) (hidle : w.current = none)
    (hacc : o.accepted = true) {script : List Outcome} (hquiet : ∀ x ∈ script, x = Outcome.ok) :
    ∃ db result fs rs,
      openWithEnvironment (fileFormat shape) o { store := w.store, script := script } =
        (.ok (db, result), fs) ∧ Survivors w.store.history rs ∧
      (∀ k, ValidKey o.toFormatOptions k → Answers (applyLog noValues rs k) (db.get k)) ∧
      ∀ r ∈ rs, r.sequence < db.lastSequence + 1 := by
  obtain ⟨db, result, fs, rs, hopen, hrs, hget, hseq⟩ :=
    ((World.along_held hes ho hw).kept hidle).opens_shared (fileFormat_lawful shape)
      (fileFormat_portable shape) hacc hquiet
  exact ⟨db, result, fs, rs, hopen, hrs, hget, fun r hr => Nat.lt_succ_of_le (hseq r hr)⟩

/-- A database with a worker, whose first write fills the Mutable: the machine crashes while the
worker is publishing the table. -/
def crashedWorker : List WorldEvent :=
  [.openDatabase { backgroundMaintenance := true, memtableSizeLimit := 1 } [],
    .act (.call (.put [1] [7] .sync)) [], .act .worker [], .act .worker [], .act .worker [],
    .crash 0 (fun _ => 0)]

/-- The hypotheses hold for such a run, and the write is not lost. -/
theorem shared_durable_crashedWorker : ∃ db result fs,
    openWithEnvironment (fileFormat byteShape) {}
      { store := (World.empty.run (fileFormat byteShape) crashedWorker).store, script := [] } =
        (.ok (db, result), fs) ∧ Answers (some [7]) (db.get [1]) := by
  have hes : World.empty.along (fileFormat byteShape) (disciplined true)
      crashedWorker = true := by decide +kernel
  have ho : ∀ e ∈ crashedWorker, e.Within (· = ({} : Options).toFormatOptions) := by
    simp [crashedWorker, WorldEvent.Within]
  have hhistory : (World.empty.run (fileFormat byteShape) crashedWorker).store.history =
      [.crashed, .appended ⟨[1], 1, .value, [7]⟩ .sync] := by decide +kernel
  obtain ⟨db, result, fs, rs, hopen, hrs, hget, -⟩ :=
    @shared_durable byteShape true {} crashedWorker hes ho _ rfl rfl (by decide +kernel) [] nofun
  rw [hhistory] at hrs
  have hall : rs = [⟨[1], 1, .value, [7]⟩] := by
    have hmem := hrs.synced _ (List.mem_cons_of_mem _ List.mem_cons_self)
    rcases List.sublist_singleton.mp hrs.attempted with hnil | hone
    · rw [hnil] at hmem
      cases hmem
    · exact hone
  refine ⟨db, result, fs, hopen, ?_⟩
  have hfirst : applyLog noValues rs [1] = some [7] := by
    rw [hall]
    decide
  rw [← hfirst]
  exact hget [1] ⟨by simp, by decide⟩

/-- In every run as above, an instance that has become Closed makes no call of the environment
again, whatever call is made on it, and whatever wakes up in it unless that is a `Flush` or
`Compact` after a `Close` that failed; it changes at most the status of its worker. Every call on
it but `Close` is refused. -/
theorem closed_untouched {shape : BloomShape} {crashes : Bool} {o : FormatOptions}
    {es : List WorldEvent}
    (hes : World.empty.along (fileFormat shape) (disciplined crashes) es = true)
    (ho : ∀ e ∈ es, e.Within (· = o)) {w : World}
    (hw : w = World.empty.run (fileFormat shape) es) {inst : Instance} (hi : inst ∈ w.closed)
    {a : Action} (hwakes : inst.wakes a = false) (fs : Fs) :
    (∃ ret inst', inst.step (fileFormat shape) a fs = (.ok (ret, inst'), fs) ∧
      inst.db.Same inst'.db) ∧
    ∀ c, a = .call c → c ≠ .close →
      ∃ e, inst.step (fileFormat shape) a fs = (.ok (some (.error e), inst), fs) := by
  have hrests := (World.along_held hes ho hw).closed inst hi
  constructor
  · obtain ⟨ret, inst', hstep, -, hsame⟩ := hrests.step (F := fileFormat shape) hwakes fs
    exact ⟨ret, inst', hstep, hsame⟩
  · intro c ha hc
    rw [ha]
    exact Instance.call_closed hrests.closed hc fs

/-- A `Flush` waits for the worker, and then `Close` is faster. -/
def overtakenFlush : List WorldEvent :=
  [.openDatabase { backgroundMaintenance := true, memtableSizeLimit := 1 } [],
    .act (.call (.put [1] [7] .sync)) [], .act .worker [], .act (.call .flush) [],
    .act (.call .close) []] ++ List.replicate 8 (.act .worker []) ++ [.act (.resume 1) []]

/-- The hypotheses hold for such a run, and the `Flush` that still waits touches no file. -/
theorem closed_untouched_overtakenFlush : ∃ inst,
    inst ∈ (World.empty.run (fileFormat byteShape) overtakenFlush).closed ∧
    inst.parked = [.flush] ∧
    ∀ fs, ∃ ret inst', inst.step (fileFormat byteShape) (.resume 0) fs = (.ok (ret, inst'), fs) ∧
      inst.db.Same inst'.db := by
  have hes : World.empty.along (fileFormat byteShape) (disciplined true)
      overtakenFlush = true := by decide +kernel
  have ho : ∀ e ∈ overtakenFlush, e.Within (· = ({} : Options).toFormatOptions) := by
    simp [overtakenFlush, WorldEvent.Within]
  have hclosed : (World.empty.run (fileFormat byteShape) overtakenFlush).closed.map
      (fun inst => (inst.parked, inst.wakes (.resume 0))) = [([.flush], false)] := by
    decide +kernel
  obtain ⟨inst, hi, hp⟩ := List.mem_map.mp (hclosed ▸ List.mem_singleton.mpr rfl)
  obtain ⟨hparked, hwakes⟩ := Prod.mk.inj hp
  exact ⟨inst, hi, hparked, fun fs => (closed_untouched hes ho rfl hi hwakes fs).1⟩

end MiniKV
