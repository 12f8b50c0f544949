import MiniKV.Completion
import MiniKV.Sections.Calm

/-!
# The progress of the worker

A directory is used by callers that sync each write and never call `Compact`.
Then every run keeps to the protocol of the logs, and nobody waits for the worker
in vain: after at most eight of its steps, whatever the other threads do and
whatever calls fail meanwhile, it has ended its round, with success or with an
error that the callers see. A `Close` that joins the worker waits no longer.
-/

namespace MiniKV

open Lib

/-- Each write is synced, nobody calls `Compact`, and no `Flush` wakes up in a closed database that
has something left to write. -/
def undisturbed (w : World) : WorldEvent → Bool
  | .openDatabase o _ => decide (o.compactionOutputSizeLimit ≤ maxUInt64)
  | .act a _ => decide a.Calm
  | .actClosed position a _ => w.closed[position]?.all (fun inst => !inst.wakes a)
  | _ => true

def WorldEvent.isWorker : WorldEvent → Bool
  | .act .worker _ => true
  | _ => false

/-- What holds in every state of an undisturbed run. -/
structure Poised (F : StorageFormat) (ρ : Regime) (w : World) : Prop where
  held : Held F ρ w
  calm : ∀ inst, w.current = some inst → inst.Calm

section

variable {F : StorageFormat} {ρ : Regime} {o : FormatOptions} {w : World} {inst inst' : Instance}
  {es more : List WorldEvent} {check : World → WorldEvent → Bool}

theorem World.along_and {Q : WorldEvent → Prop} (hes : w.along F check es = true)
    (hQ : ∀ e ∈ es, Q e) : World.Along F (fun w e => check w e = true ∧ Q e) w es := by
  induction es generalizing w with
  | nil => trivial
  | cons e es ih =>
    obtain ⟨he, hes⟩ := Bool.and_eq_true_iff.mp hes
    exact ⟨⟨he, hQ e List.mem_cons_self⟩, ih hes (fun x hx => hQ x (List.mem_cons_of_mem _ hx))⟩

theorem World.Along.append {P : World → WorldEvent → Prop} :
    World.Along F P w (es ++ more) ↔ World.Along F P w es ∧ World.Along F P (w.run F es) more := by
  induction es generalizing w with
  | nil => exact ⟨fun h => ⟨trivial, h⟩, fun h => h.2⟩
  | cons e es ih => exact (and_congr_right (fun _ => ih)).trans and_assoc.symm

/-- As long as a measure of the state is positive and each step of the worker lowers it, and no
other step raises it, the worker makes no more steps than the measure was. -/
theorem World.Along.count_le {Φ : World → Prop} {P : World → WorldEvent → Prop}
    {busy : World → Bool} {ahead : World → Nat} (hkeep : ∀ w e, P w e → Φ w → Φ (w.step F e))
    (hpos : ∀ w, Φ w → busy w = true → 0 < ahead w)
    (hstep : ∀ w e, P w e → Φ w → busy w = true → busy (w.step F e) = true →
      ahead (w.step F e) + (if e.isWorker then 1 else 0) ≤ ahead w)
    (hes : World.Along F P w es) (hbusy : w.along F (fun w _ => busy w) es = true) (h : Φ w) :
    es.countP WorldEvent.isWorker ≤ ahead w := by
  induction es generalizing w with
  | nil => exact Nat.zero_le _
  | cons e es ih =>
    obtain ⟨hb, hbusy⟩ := Bool.and_eq_true_iff.mp hbusy
    rw [List.countP_cons]
    cases es with
    | nil =>
      have := hpos w h hb
      rw [List.countP_nil]
      split <;> omega
    | cons e' es =>
      have hb' : busy (w.step F e) = true := (Bool.and_eq_true_iff.mp hbusy).1
      have hrest := ih hes.2 hbusy (hkeep w e hes.1 h)
      have := hstep w e hes.1 h hb hb'
      omega

theorem World.Along.mono {Φ : World → Prop} {P P' : World → WorldEvent → Prop}
    (hkeep : ∀ w e, P w e → Φ w → Φ (w.step F e)) (hP : ∀ w e, P w e → Φ w → P' w e)
    (hes : World.Along F P w es) (h : Φ w) : World.Along F P' w es := by
  induction es generalizing w with
  | nil => trivial
  | cons e es ih => exact ⟨hP w e hes.1 h, ih hes.2 (hkeep w e hes.1 h)⟩

theorem World.along_iff :
    w.along F check es = true ↔ World.Along F (fun w e => check w e = true) w es := by
  induction es generalizing w with
  | nil => exact ⟨fun _ => trivial, fun _ => rfl⟩
  | cons e es ih => exact Bool.and_eq_true_iff.trans (and_congr_right (fun _ => ih))

/-! ## The invariant -/

theorem Opened.calm {H : List Label} {o₀ : FormatOptions} {o : Options} {v : Version}
    {ts : List SSTableReader} {T I M : List Entry} {db : Database} {st : Store}
    (h : Opened F ρ.toUsage H o₀ o v ts T I M db st)
    (hlimit : o.compactionOutputSizeLimit ≤ maxUInt64) : (Instance.ofDatabase db).Calm := by
  have haccepted := h.accepted
  simp only [Options.accepted, decide_eq_true_eq] at haccepted
  obtain ⟨r, i, -, -, hdb⟩ := h.members
  subst hdb
  refine ⟨fun p hp => absurd hp List.not_mem_nil, haccepted.1, hlimit, fun hbg => ?_⟩
  have hbg : o.backgroundMaintenance = true := hbg
  refine ⟨Or.inl rfl, fun hno => Bool.noConfusion hno, fun himm _ => Or.inl ?_⟩
  have himm : r.immutable ≠ none := himm
  show (o.backgroundMaintenance && r.immutable.isSome) = true
  rw [hbg, Option.isSome_iff_ne_none.mpr himm]
  rfl

theorem Poised.allows (h : Poised F (shared True o) w) {e : WorldEvent}
    (he : undisturbed w e = true ∧ e.Within (· = o)) : (shared True o).Allows w e := by
  cases e with
  | openDatabase o' script => exact ⟨he.2, fun _ => id⟩
  | act a script =>
    intro inst hc r mode hcarries
    exact (h.calm inst hc).takes (of_decide_eq_true he.1) (fun _ _ => trivial) id hcarries
  | actClosed position a script =>
    intro inst hi
    have hw := he.1
    simp only [undisturbed, hi, Option.all_some] at hw
    simpa using hw
  | kill => trivial
  | drop position => trivial
  | crash directory cut => trivial

/-- A database that is still open was there before, or is what a step of it has left. -/
theorem World.step_current {e : WorldEvent} (hc : w.current = some inst)
    (hc' : (w.step F e).current = some inst') :
    (inst' = inst ∧ e.isWorker = false) ∨ ∃ a script ret fs, e = .act a script ∧
      inst.step F a { store := w.store, script := script } = (.ok (ret, inst'), fs) ∧
        inst'.db.state ≠ .closed := by
  have hsame : w.current = some inst' → inst' = inst := fun h => by
    rw [hc] at h
    exact (Option.some.inj h).symm
  cases e with
  | openDatabase o script =>
    unfold World.step at hc'
    rw [hc] at hc'
    exact Or.inl ⟨hsame hc', rfl⟩
  | act a script =>
    unfold World.step at hc'
    rw [hc] at hc'
    dsimp only at hc'
    match hm : inst.step F a { store := w.store, script := script } with
    | (.ok (ret, i), fs) =>
      rw [hm] at hc'
      dsimp only at hc'
      unfold World.settle at hc'
      by_cases hclosed : i.db.state = .closed
      · rw [if_pos hclosed] at hc'
        cases hc'
      · rw [if_neg hclosed] at hc'
        cases hc'
        exact Or.inr ⟨a, script, ret, fs, rfl, hm, hclosed⟩
    | (.error e, fs) =>
      rw [hm] at hc'
      cases hc'
    | (.killed, fs) =>
      rw [hm] at hc'
      cases hc'
  | actClosed position a script =>
    have hcurrent : (w.step F (.actClosed position a script)).current = w.current := by
      unfold World.step
      dsimp only
      split
      · rfl
      · split
        · rfl
        · rfl
    exact Or.inl ⟨hsame (hcurrent ▸ hc'), rfl⟩
  | kill => cases hc'
  | drop position => exact Or.inl ⟨hsame hc', rfl⟩
  | crash directory cut => cases hc'

/-- What a step makes of the open instance. -/
theorem Poised.acts (hF : F.Lawful) (hP : F.Portable) (hplain : F.Plain)
    (h : Poised F (shared True o) w) (hc : w.current = some inst) {e : WorldEvent}
    (he : undisturbed w e = true) (hc' : (w.step F e).current = some inst') :
    inst'.Calm ∧ (inst.db.unrested = true → inst'.db.unrested = true →
      inst'.worker.ahead + (if e.isWorker then 1 else 0) ≤ inst.worker.ahead) := by
  have hcalm := h.calm inst hc
  have hd : (shared True o).durable := trivial
  rcases World.step_current hc hc' with ⟨rfl, hother⟩ | ⟨a, script, ret, fs, rfl, hm, hopen⟩
  · rw [hother]
    exact ⟨hcalm, fun _ _ => Nat.le_refl _⟩
  · have ha : a.Calm := of_decide_eq_true he
    have hstep := hcalm.step (q := False) (σ := sceneOf inst.db w.store) hF hP hplain hd ha
      (fun r mode hcarries => hcalm.takes ha (fun _ _ => trivial) id hcarries)
      { store := w.store, script := script } ⟨False.elim, h.held.joint inst hc, rfl⟩
    rw [hm] at hstep
    obtain ⟨hcalm', hnear⟩ := hstep hopen
    refine ⟨hcalm', fun hun hun' => ?_⟩
    cases a with
    | worker => exact hnear hun hun'
    | call c => exact hnear hun hun'
    | resume position => exact hnear hun hun'

theorem Poised.step (hF : F.Lawful) (hP : F.Portable) (hplain : F.Plain)
    (h : Poised F (shared True o) w) {e : WorldEvent}
    (he : undisturbed w e = true ∧ e.Within (· = o)) : Poised F (shared True o) (w.step F e) := by
  have hd : (shared True o).durable := trivial
  refine ⟨h.held.step hF hP hd id (h.allows he), fun inst' hc' => ?_⟩
  cases hc : w.current with
  | some inst => exact (h.acts hF hP hplain hc he.1 hc').1
  | none =>
    cases e with
    | openDatabase o' script =>
      have hopen := openWithEnvironment_kept (q := False) (H := w.store.history) hF hP he.2
        { store := w.store, script := script } ⟨False.elim, h.held.kept hc, rfl⟩
      unfold World.step at hc'
      rw [hc] at hc'
      dsimp only at hc'
      match hm : openWithEnvironment F o' { store := w.store, script := script } with
      | (.ok (db, result), fs) =>
        rw [hm] at hopen hc'
        obtain ⟨-, -, -, o₀, v, ts, T, I, M, hop⟩ := hopen
        cases hc'
        exact hop.calm (of_decide_eq_true he.1)
      | (.error e, fs) =>
        rw [hm] at hc'
        cases hc'
      | (.killed, fs) =>
        rw [hm] at hc'
        cases hc'
    | act a script =>
      unfold World.step at hc'
      rw [hc] at hc'
      exact h.calm inst' hc'
    | actClosed position a script =>
      obtain ⟨closed, hstep, -⟩ :=
        step_actClosed_rests (F := F) h.held.closed (h.allows he) script
      rw [hstep] at hc'
      exact h.calm inst' hc'
    | kill => cases hc'
    | drop position => exact h.calm inst' hc'
    | crash directory cut => cases hc'

/-- The writes of such a run keep to the protocol. -/
theorem Poised.disciplined (h : Poised F (shared True o) w) {e : WorldEvent}
    (he : undisturbed w e = true ∧ e.Within (· = o)) : MiniKV.disciplined true w e = true := by
  have hallows := h.allows he
  cases e with
  | act a script =>
    unfold MiniKV.disciplined
    cases hc : w.current with
    | none => rfl
    | some inst =>
      dsimp only [Option.all_some]
      cases hcarries : inst.carries a with
      | none => rfl
      | some write =>
        have htakes := hallows inst hc write.1 write.2 hcarries
        rw [Option.all_some, Bool.and_eq_true_iff]
        constructor
        · by_contra hwaits
          simp only [Database.compactionWaits, Bool.not_eq_true', Bool.not_eq_false,
            Bool.and_eq_true] at hwaits
          obtain ⟨⟨hbg, hok⟩, hany⟩ := hwaits
          obtain ⟨c, hc', hno⟩ := (Option.any_eq_true _ _).mp hany
          rw [htakes.settled trivial hbg hok c hc'] at hno
          cases hno
        · cases hf : inst.db.freezes write.1 with
          | false => rfl
          | true =>
            have hsync := (htakes.seals (Database.freezes_iff.mp hf) trivial).1 trivial
            rw [hsync]
            rfl
  | actClosed position a script => exact he.1
  | openDatabase o' script => rfl
  | kill => rfl
  | drop position => rfl
  | crash directory cut => rfl

theorem Poised.empty : Poised F (shared True o) World.empty :=
  ⟨.empty (o := o) rfl ⟨rfl, rfl⟩, fun _ hc => by cases hc⟩

theorem Poised.run (hF : F.Lawful) (hP : F.Portable) (hplain : F.Plain)
    (hes : World.Along F (fun w e => undisturbed w e = true ∧ e.Within (· = o)) World.empty es) :
    Poised F (shared True o) (World.empty.run F es) :=
  hes.keeps (fun _ _ he hw => hw.step hF hP hplain he) .empty

end

/-! ## The protocol -/

/-- Callers that sync each write and never call `Compact` keep to the protocol of the logs, in
either mode, whatever calls fail and wherever the machine crashes: no write is ever made beside a
compaction that waits for its publication. -/
theorem undisturbed_disciplined {shape : BloomShape} (hshape : shape.Plain) {o : FormatOptions}
    {es : List WorldEvent} (hes : World.empty.along (fileFormat shape) undisturbed es = true)
    (ho : ∀ e ∈ es, e.Within (· = o)) :
    World.empty.along (fileFormat shape) (disciplined true) es = true := by
  apply World.along_iff.mpr
  apply World.Along.mono (Φ := Poised (fileFormat shape) (shared True o))
    (fun w e he hw => hw.step (fileFormat_lawful shape) (fileFormat_portable shape)
      (fileFormat_plain hshape) he) (fun w e he hw => hw.disciplined he) (World.along_and hes ho)
  exact Poised.empty

/-- With such callers no write meets a waiting compaction, and every synced write survives, in
either mode, whatever calls fail and wherever a process dies or the machine crashes: the next `Open`
without a fault returns a database that shows what is left of the history, and gives the next write
a larger sequence number than any record that is left. -/
theorem undisturbed_durable {shape : BloomShape} (hshape : shape.Plain) {o : Options}
    {es : List WorldEvent} (hes : World.empty.along (fileFormat shape) undisturbed es = true)
    (ho : ∀ e ∈ es, e.Within (· = o.toFormatOptions)) {w : World}
    (hw : w = World.empty.run (fileFormat shape) es) (hidle : w.current = none)
    (hacc : o.accepted = true) {script : List Outcome} (hquiet : ∀ x ∈ script, x = Outcome.ok) :
    World.empty.along (fileFormat shape) (disciplined true) es = true ∧ ∃ db result fs rs,
      openWithEnvironment (fileFormat shape) o { store := w.store, script := script } =
        (.ok (db, result), fs) ∧ Survivors w.store.history rs ∧
      (∀ k, ValidKey o.toFormatOptions k → Answers (applyLog noValues rs k) (db.get k)) ∧
      ∀ r ∈ rs, r.sequence < db.lastSequence + 1 := by
  have hdisciplined := undisturbed_disciplined hshape hes ho
  refine ⟨hdisciplined, ?_⟩
  have hheld := World.along_held hdisciplined ho hw
  obtain ⟨db, result, fs, rs, hopen, hrs, hget, hseq⟩ := (hheld.kept hidle).opens_shared
    (fileFormat_lawful shape) (fileFormat_portable shape) hacc hquiet
  exact ⟨db, result, fs, rs, hopen, hrs, hget, fun r hr => Nat.lt_succ_of_le (hseq r hr)⟩

/-- A database with a worker whose Immutable and Mutable are both full, and the steps in which the
worker makes room. -/
def fullWorker : List WorldEvent :=
  [.openDatabase { backgroundMaintenance := true, memtableSizeLimit := 1 } [],
    .act (.call (.put [1] [7] .sync)) [], .act (.call (.put [2] [8] .sync)) []]

def roundOfWorker : List WorldEvent := List.replicate 8 (.act .worker [])

theorem fullWorker_undisturbed : World.empty.along (fileFormat byteShape) undisturbed
    (fullWorker ++ roundOfWorker) = true := by decide +kernel

theorem fullWorker_within : ∀ e ∈ fullWorker ++ roundOfWorker,
    e.Within (· = ({} : Options).toFormatOptions) := by
  simp [fullWorker, roundOfWorker, WorldEvent.Within]

/-- The machine crashes while the worker is publishing the first table. -/
def crashedRound : List WorldEvent :=
  fullWorker ++ roundOfWorker.take 3 ++ [.crash 0 (fun _ => 0)]

/-- The hypotheses hold for such a run, and neither write is lost. -/
theorem undisturbed_durable_crashedRound :
    World.empty.along (fileFormat byteShape) (disciplined true) crashedRound = true ∧
    ∃ db result fs, openWithEnvironment (fileFormat byteShape) {}
      { store := (World.empty.run (fileFormat byteShape) crashedRound).store, script := [] } =
        (.ok (db, result), fs) ∧
      Answers (some [7]) (db.get [1]) ∧ Answers (some [8]) (db.get [2]) := by
  have hes : World.empty.along (fileFormat byteShape) undisturbed crashedRound = true := by
    decide +kernel
  have ho : ∀ e ∈ crashedRound, e.Within (· = ({} : Options).toFormatOptions) := by
    simp [crashedRound, fullWorker, roundOfWorker, WorldEvent.Within]
  have hhistory : (World.empty.run (fileFormat byteShape) crashedRound).store.history =
      [.crashed, .appended ⟨[2], 2, .value, [8]⟩ .sync, .appended ⟨[1], 1, .value, [7]⟩ .sync] := by
    decide +kernel
  obtain ⟨hdisciplined, db, result, fs, rs, hopen, hrs, hget, -⟩ :=
    @undisturbed_durable byteShape byteShape_plain {} crashedRound hes ho _ rfl rfl
      (by decide +kernel) [] (List.forall_mem_nil _)
  rw [hhistory] at hrs
  have hall : rs = [⟨[1], 1, .value, [7]⟩, ⟨[2], 2, .value, [8]⟩] := by
    apply hrs.attempted.eq_of_length_le
    have hfirst := hrs.synced ⟨[1], 1, .value, [7]⟩ (by simp)
    have hsecond := hrs.synced ⟨[2], 2, .value, [8]⟩ (by simp)
    cases rs with
    | nil => cases hfirst
    | cons r rs =>
      cases rs with
      | nil =>
        rw [List.mem_singleton] at hfirst hsecond
        rw [← hfirst] at hsecond
        cases hsecond
      | cons r' rs => exact Nat.le_add_left 2 _
  rw [hall] at hget
  exact ⟨hdisciplined, db, result, fs, hopen, hget [1] ⟨by simp, by decide⟩,
    hget [2] ⟨by simp, by decide⟩⟩

/-! ## Waiting -/

/-- What a call waits for, in a running database with a worker. -/
def Parked.waits (db : Database) : Parked → Bool
  | .write _ _ _ _ => writeBlocked db
  | .flush => db.backgroundWorkRunning
  | .compact => db.backgroundWorkRunning
  | .waitForBackgroundWork => db.backgroundWorkRequested || db.backgroundWorkRunning
  | .closeJoin => false
  | .closeWait => false

/-- Such a call would have to go on waiting. -/
def World.waiting (p : Parked) (w : World) : Bool :=
  w.current.any (fun inst =>
    inst.db.options.backgroundMaintenance && inst.db.isRunning && p.waits inst.db)

def World.ahead (w : World) : Nat := (w.current.map (fun inst => inst.worker.ahead)).getD 0

section

variable {F : StorageFormat} {o : FormatOptions} {w : World} {inst : Instance} {p : Parked}

theorem Worker.ahead_le (worker : Worker) : worker.ahead ≤ 8 := by
  cases worker with
  | absent => exact Nat.zero_le 8
  | idle => exact Nat.le_refl 8
  | publishing g m stage =>
    cases stage <;> simp [Worker.ahead]

theorem World.ahead_le (w : World) : w.ahead ≤ 8 := by
  unfold World.ahead
  cases w.current with
  | none => exact Nat.zero_le 8
  | some inst => exact inst.worker.ahead_le

theorem Poised.unrested (h : Poised F (shared True o) w) (hw : w.waiting p = true) :
    ∃ inst, w.current = some inst ∧ inst.db.unrested = true := by
  obtain ⟨inst, hc, hinst⟩ := (Option.any_eq_true _ _).mp hw
  simp only [Bool.and_eq_true] at hinst
  obtain ⟨⟨hbg, hrun⟩, hp⟩ := hinst
  refine ⟨inst, hc, ?_⟩
  have hbusy : inst.db.backgroundWorkRunning = true → inst.db.unrested = true := by
    intro hbusy
    simp [Database.unrested, hbg, hrun, hbusy]
  cases p with
  | write type key value mode =>
    have hd : (shared True o).durable := trivial
    exact (h.calm inst hc).unrested_of_blocked (h.held.joint inst hc) hd hp
  | flush => exact hbusy hp
  | compact => exact hbusy hp
  | waitForBackgroundWork =>
    have hp : (inst.db.backgroundWorkRequested || inst.db.backgroundWorkRunning) = true := hp
    simp [Database.unrested, hbg, hrun, hp]
  | closeJoin => cases hp
  | closeWait => cases hp

/-- A worker that is not at rest has steps ahead. -/
theorem Poised.ahead_pos (h : Poised F (shared True o) w) (hw : w.waiting p = true) :
    0 < w.ahead := by
  obtain ⟨inst, hc, hun⟩ := h.unrested hw
  have hj := h.held.joint inst hc
  have hworker := hj.worker
  simp only [Database.unrested, Bool.and_eq_true] at hun
  unfold World.ahead
  rw [hc]
  show 0 < inst.worker.ahead
  generalize hw : inst.worker = worker at hworker
  cases hworker with
  | absent _ left =>
    rw [hj.not_stopped hun.1.2] at left
    cases left hun.1.1
  | idle => exact Nat.zero_lt_succ 7
  | publishing => exact Nat.zero_lt_succ _

theorem Poised.ahead_step (hF : F.Lawful) (hP : F.Portable) (hplain : F.Plain)
    (h : Poised F (shared True o) w) {e : WorldEvent}
    (he : undisturbed w e = true ∧ e.Within (· = o)) (hw : w.waiting p = true)
    (hw' : (w.step F e).waiting p = true) :
    (w.step F e).ahead + (if e.isWorker then 1 else 0) ≤ w.ahead := by
  obtain ⟨inst, hc, hun⟩ := h.unrested hw
  obtain ⟨inst', hc', hun'⟩ := (h.step hF hP hplain he).unrested hw'
  unfold World.ahead
  rw [hc, hc']
  exact (h.acts hF hP hplain hc he.1 hc').2 hun hun'

end

/-- In every undisturbed run, from any of its states on: as long as a write, a `Flush`, a `Compact`
or a `WaitForBackgroundWork` has to wait in a running database, the worker makes at most eight
steps, whatever the other threads do and whatever calls fail. -/
theorem waiting_bounded {shape : BloomShape} (hshape : shape.Plain) {o : FormatOptions}
    {before steps : List WorldEvent}
    (hes : World.empty.along (fileFormat shape) undisturbed (before ++ steps) = true)
    (ho : ∀ e ∈ before ++ steps, e.Within (· = o)) {w : World}
    (hw : w = World.empty.run (fileFormat shape) before) {p : Parked}
    (hwaits : w.along (fileFormat shape) (fun w _ => w.waiting p) steps = true) :
    steps.countP WorldEvent.isWorker ≤ 8 := by
  have hF := fileFormat_lawful shape
  have hP := fileFormat_portable shape
  have hplain := fileFormat_plain hshape
  obtain ⟨hbefore, hsteps⟩ := World.Along.append.mp (World.along_and hes ho)
  have hpoised := Poised.run hF hP hplain hbefore
  rw [← hw] at hsteps hpoised
  have hcount := hsteps.count_le (Φ := Poised (fileFormat shape) (shared True o))
    (fun _ _ he h => h.step hF hP hplain he) (fun _ h hb => h.ahead_pos hb)
    (fun _ _ he h hb hb' => h.ahead_step hF hP hplain he hb hb') hwaits hpoised
  exact hcount.trans w.ahead_le

/-- The hypotheses hold for that run: the next write waits for all the steps of the round, and no
longer. -/
theorem waiting_bounded_fullWorker : ∃ w w' : World,
    w = World.empty.run (fileFormat byteShape) fullWorker ∧
    w' = w.run (fileFormat byteShape) roundOfWorker ∧
    w.waiting (.write .value [3] [9] .sync) = true ∧
    w'.waiting (.write .value [3] [9] .sync) = false ∧
    roundOfWorker.countP WorldEvent.isWorker ≤ 8 := by
  refine ⟨_, _, rfl, rfl, by decide +kernel, by decide +kernel, ?_⟩
  exact waiting_bounded (p := .write .value [3] [9] .sync) byteShape_plain fullWorker_undisturbed
    fullWorker_within rfl (by decide +kernel)

/-! ## Joining -/

/-- How many steps the worker makes before it returns, at most, once it has been told to stop. -/
def Worker.toReturn : Worker → Nat
  | .absent => 0
  | .idle => 1
  | .publishing _ _ stage => stage.remaining + 2

/-- The database is closing, and its worker has not returned. -/
def World.joining (w : World) : Bool :=
  w.current.any (fun inst => inst.db.stopBackground && !inst.worker.isAbsent)

def World.toReturn (w : World) : Nat := (w.current.map (fun inst => inst.worker.toReturn)).getD 0

section

variable {F : StorageFormat} {q : Prop} {R : Store → Prop} {w : World} {inst inst' : Instance}

/-- The worker of a database that is closing ends its round and returns. -/
theorem Instance.workerStep_toReturn (hstop : inst.db.stopBackground = true)
    (hw : inst.worker.isAbsent = false) :
    Leads q R (inst.workerStep F) (fun i => i.worker.toReturn < inst.worker.toReturn) := by
  unfold Instance.workerStep
  cases hworker : inst.worker with
  | absent =>
    rw [hworker] at hw
    cases hw
  | idle =>
    dsimp only
    rw [if_pos hstop]
    exact Leads.pure (Nat.zero_lt_one)
  | publishing g m stage =>
    have hpublish : (∀ result, stage ≠ .done result) → Leads q R
        (do
          let stage ← publishStep F inst.db.format g m stage
          pure (none, { inst with worker := .publishing g m stage }))
        (fun i => i.worker.toReturn < stage.remaining + 2) := by
      intro hstage
      apply Prog.Triple.bind (publishStep_remaining hstage)
      intro stage'
      exact Prog.Triple.pure (fun fs hlt => Nat.add_lt_add_right hlt 2)
    cases stage with
    | done result =>
      refine Prog.Triple.bind (Prog.Triple.any _) (fun _ => Prog.Triple.pure (fun _ _ => ?_))
      exact Nat.one_lt_two
    | start => exact hpublish (by simp)
    | write file encoded => exact hpublish (by simp)
    | sync file => exact hpublish (by simp)
    | rename => exact hpublish (by simp)
    | syncDirectory => exact hpublish (by simp)
    | openReader => exact hpublish (by simp)
    | cleanup e => exact hpublish (by simp)

theorem Instance.step_toReturn (hstop : inst.db.stopBackground = true)
    (hw : inst.worker.isAbsent = false) (a : Action) :
    Leads q R (inst.step F a) (fun i =>
      i.worker.toReturn + (if a = .worker then 1 else 0) ≤ inst.worker.toReturn) := by
  cases a with
  | worker =>
    exact (Instance.workerStep_toReturn hstop hw).conseq (fun _ hs => hs) (fun _ hi => hi)
  | call c =>
    refine (Instance.call_waits c).conseq (fun _ hs => hs) (fun i hi => ?_)
    rw [hi.1]
    exact Nat.le_refl _
  | resume position =>
    refine (Instance.resume_waits position).conseq (fun _ hs => hs) (fun i hi => ?_)
    rw [hi.1]
    exact Nat.le_refl _

theorem World.toReturn_of_current (hc : w.current = some inst) :
    w.toReturn = inst.worker.toReturn := by
  unfold World.toReturn
  rw [hc]
  rfl

theorem World.step_toReturn {e : WorldEvent} (hj : w.joining = true)
    (hj' : (w.step F e).joining = true) :
    (w.step F e).toReturn + (if e.isWorker then 1 else 0) ≤ w.toReturn := by
  obtain ⟨inst, hc, hinst⟩ := (Option.any_eq_true _ _).mp hj
  obtain ⟨inst', hc', -⟩ := (Option.any_eq_true _ _).mp hj'
  obtain ⟨hstop, hworker⟩ := Bool.and_eq_true_iff.mp hinst
  have hworker : inst.worker.isAbsent = false := by simpa using hworker
  rw [World.toReturn_of_current hc, World.toReturn_of_current hc']
  rcases World.step_current hc hc' with ⟨rfl, hother⟩ | ⟨a, script, ret, fs, rfl, hm, -⟩
  · rw [hother]
    exact Nat.le_refl _
  · have hstep := Instance.step_toReturn (q := False) (R := fun _ => True) (F := F) hstop hworker a
      { store := w.store, script := script } ⟨False.elim, trivial⟩
    rw [hm] at hstep
    cases a with
    | worker => exact hstep
    | call c => exact hstep
    | resume position => exact hstep

theorem World.toReturn_pos (hj : w.joining = true) : 0 < w.toReturn := by
  obtain ⟨inst, hc, hinst⟩ := (Option.any_eq_true _ _).mp hj
  obtain ⟨-, hworker⟩ := Bool.and_eq_true_iff.mp hinst
  unfold World.toReturn
  rw [hc]
  show 0 < inst.worker.toReturn
  cases hw : inst.worker with
  | absent =>
    rw [hw] at hworker
    cases hworker
  | idle => exact Nat.zero_lt_one
  | publishing g m stage => exact Nat.zero_lt_succ _

theorem World.toReturn_le (w : World) : w.toReturn ≤ 8 := by
  unfold World.toReturn
  cases w.current with
  | none => exact Nat.zero_le 8
  | some inst =>
    show inst.worker.toReturn ≤ 8
    cases inst.worker with
    | absent => exact Nat.zero_le 8
    | idle => exact Nat.le_add_left 1 7
    | publishing g m stage =>
      cases stage <;> simp [Worker.toReturn]

end

/-- From any state whatever, with any format: a `Close` that has told the worker to stop waits for
at most eight of its steps, whatever the other threads do and whatever calls fail. -/
theorem close_joined {F : StorageFormat} {w : World} {steps : List WorldEvent}
    (hsteps : w.along F (fun w _ => w.joining) steps = true) :
    steps.countP WorldEvent.isWorker ≤ 8 := by
  have hcount := (World.along_iff.mp hsteps).count_le (Φ := fun _ => True)
    (fun _ _ _ _ => trivial) (fun _ _ hj => World.toReturn_pos hj)
    (fun _ _ _ _ hj hj' => World.step_toReturn hj hj') hsteps trivial
  exact hcount.trans w.toReturn_le

/-- The hypothesis holds for the run above, where `Close` is called when the worker has begun. -/
theorem close_joined_fullWorker : ∃ w w' : World,
    w = World.empty.run (fileFormat byteShape)
      (fullWorker ++ [.act .worker [], .act (.call .close) []]) ∧
    w' = w.run (fileFormat byteShape) roundOfWorker ∧ w.joining = true ∧ w'.joining = false ∧
    roundOfWorker.countP WorldEvent.isWorker ≤ 8 := by
  refine ⟨_, _, rfl, rfl, by decide +kernel, by decide +kernel, ?_⟩
  exact close_joined (F := fileFormat byteShape) (w := World.empty.run (fileFormat byteShape)
    (fullWorker ++ [.act .worker [], .act (.call .close) []])) (by decide +kernel)

end MiniKV
