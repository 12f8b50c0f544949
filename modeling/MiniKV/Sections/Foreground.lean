import MiniKV.Sections.Write
import MiniKV.System

/-!
# An instance in foreground mode

Without a worker every call runs to its end in one step; only `Close` takes two.
Each step of an instance keeps the invariant of an open database, or closes it.
An instance that is closed does nothing more.
-/

namespace MiniKV

open Lib

/-! ## Calls of an instance -/

/-- A program that does not end with an error: from `R`, a return gives `Q` and a kill `K`. -/
def Steps {α : Type} (R : Store → Prop) (m : Io α) (Q : α → Store → Prop) (K : Store → Prop) :
    Prop :=
  Prog.Triple (fun fs : Fs => R fs.store) m (fun a fs => Q a fs.store) (fun _ _ => False)
    (fun fs => K fs.store)

section

variable {α β : Type} {R R' : Store → Prop} {K : Store → Prop} {Q Q' : α → Store → Prop}
  {E : Status → Database → Store → Prop} {db : Database} {inst : Instance}

theorem Steps.pure {a : α} (h : ∀ st, R st → Q a st) : Steps R (Pure.pure a : Io α) Q K :=
  Prog.Triple.pure (fun _ hr => h _ hr)

theorem Steps.bind {m : Io β} {S : β → Store → Prop} {f : β → Io α} (hm : Steps R m S K)
    (hf : ∀ b, Steps (S b) (f b) Q K) : Steps R (m >>= f) Q K :=
  Prog.Triple.bind hm hf

theorem Steps.ite {c : Prop} [Decidable c] {m n : Io α} (ht : c → Steps R m Q K)
    (hf : ¬ c → Steps R n Q K) : Steps R (if c then m else n) Q K :=
  Prog.Triple.ite ht hf

/-- What follows from the precondition becomes a hypothesis. -/
theorem Steps.know {φ : Prop} {m : Io α} (hφ : ∀ st, R st → φ) (h : φ → Steps R m Q K) :
    Steps R m Q K :=
  fun fs hr => h (hφ _ hr) fs hr

/-- A section that is run on the members of an instance. -/
theorem Acts.runSection {m : Act Unit} {S : Unit → Database → Store → Prop}
    (h : Acts False K (At db R) m S E) :
    Steps R (runSection db m) (fun r st => match r.1 with
      | .ok () => S () r.2 st
      | .error e => E e r.2 st) K := by
  intro fs hr
  have h' := h { db := db, fs := fs } ⟨nofun, rfl, hr⟩
  unfold MiniKV.runSection
  match hm : m { db := db, fs := fs } with
  | (.ok (), s) =>
    rw [hm] at h'
    exact h'.2
  | (.error e, s) =>
    rw [hm] at h'
    exact h'.2
  | (.killed, s) =>
    rw [hm] at h'
    exact h'.2

/-- A section that ends a call. -/
theorem Acts.complete {m : Act Unit} {Q : Database → Store → Prop} {A : Status → Prop}
    (h : Acts False K (At inst.db R) m (fun _ => Q) (fun e d st => Q d st ∧ A e)) :
    Steps R (inst.complete m) (fun r st => ∃ d, r.2 = { inst with db := d } ∧ Q d st ∧
      ∀ e, r.1 = some (.error e) → A e) K := by
  refine Steps.bind h.runSection (fun ⟨result, d⟩ => Steps.pure (fun st hq => ⟨d, rfl, ?_⟩))
  cases result with
  | ok u => exact ⟨hq, nofun⟩
  | error e =>
    refine ⟨hq.1, fun e' he => ?_⟩
    rw [← Except.error.inj (Option.some.inj he)]
    exact hq.2

end

/-! ## What a step may change -/

/-- No status names an inconsistency of the database. -/
def Control.Sane (k : Control) : Prop :=
  k.status.code ≠ .corruption ∧ k.backgroundStatus.code ≠ .corruption

/-- From one scene to a later one: a sequence number is not given back, and as long as there
is no sticky error at most one record was appended, under the last of them. -/
structure Advances (σ σ' : Scene) : Prop where
  options : σ'.options = σ.options
  lastSequence : σ.lastSequence ≤ σ'.lastSequence
  grown : σ'.control.status.isOk = true → σ.control.status.isOk = true ∧
    ((σ'.history = σ.history ∧ σ'.lastSequence = σ.lastSequence) ∨
      ∃ r mode, σ'.history = .appended r mode :: σ.history ∧ r.sequence = σ'.lastSequence)
  sane : σ.control.Sane → σ'.control.Sane

/-- An open database after a section. -/
structure Continues (F : StorageFormat) (ρ : Regime) (σ : Scene) (d : Database) (st : Store) :
    Prop where
  steady : Steady F ρ (sceneOf d st) d st
  advances : Advances σ (sceneOf d st)
  state : d.state = σ.control.state
  running : d.backgroundWorkRunning = σ.control.backgroundWorkRunning
  requested : d.backgroundWorkRequested = σ.control.backgroundWorkRequested

/-- Where no call has a reason to report an inconsistency. -/
structure Usual (F : StorageFormat) (ρ : Regime) (σ : Scene) : Prop where
  plain : F.Plain
  durable : ρ.durable
  single : ρ.single
  sane : σ.control.Sane
  limit : σ.options.compactionOutputSizeLimit ≤ maxUInt64

/-- A status that a call may return. -/
def Returns (F : StorageFormat) (ρ : Regime) (σ : Scene) (e : Status) : Prop :=
  Usual F ρ σ → e.code ≠ .corruption

section

variable {F : StorageFormat} {ρ : Regime} {σ σ' : Scene} {db d : Database} {st : Store} {q : Prop}
  {e : Status} {r : Record} {mode : SyncMode}

theorem Advances.refl (σ : Scene) : Advances σ σ :=
  ⟨rfl, le_refl _, fun h => ⟨h, Or.inl ⟨rfl, rfl⟩⟩, id⟩

theorem Steady.of_scene (h : Steady F ρ σ db st) : Steady F ρ (sceneOf db st) db st := by
  rw [h.inv.scene]
  exact h

/-- Maintenance changes no part of the scene, apart from the status of the worker. -/
theorem Steady.continues (h : Steady F ρ σ' d st)
    (hσ : σ' = σ ∨ σ' = σ.under { σ.control with backgroundStatus := .ok }) :
    Continues F ρ σ d st := by
  have hscene := h.inv.scene
  have hcontrol := h.inv.control_eq
  refine ⟨h.of_scene, ?_, ?_, ?_, ?_⟩
  · rw [hscene]
    rcases hσ with rfl | rfl
    · exact Advances.refl σ'
    · exact ⟨rfl, le_refl _, fun h => ⟨h, Or.inl ⟨rfl, rfl⟩⟩, fun h => ⟨h.1, nofun⟩⟩
  all_goals
    rcases hσ with rfl | rfl
  · exact congrArg Control.state hcontrol
  · exact congrArg Control.state hcontrol
  · exact congrArg Control.backgroundWorkRunning hcontrol
  · exact congrArg Control.backgroundWorkRunning hcontrol
  · exact congrArg Control.backgroundWorkRequested hcontrol
  · exact congrArg Control.backgroundWorkRequested hcontrol

theorem Steady.continues_same (h : Steady F ρ σ d st) : Continues F ρ σ d st :=
  h.continues (Or.inl rfl)

theorem Cause.returns (h : Cause F ρ q d.contents e) (hinv : ContentsInv ρ d.contents) :
    Returns F ρ σ e :=
  fun u => (h.outer u.plain (ρ.durable_imp u.durable).2 hinv).not_corruption

/-- With one log at a time there is no second MemTable. -/
theorem Steady.empty_of_immutable (h : Steady F ρ σ db st) (hd : ρ.durable) (hs : ρ.single)
    (himm : db.immutable ≠ none) : db.mutableTable.entries = [] := by
  obtain ⟨T, I, D, M, X, hstored⟩ := (h.inv.stored hd).current
  have hM := (hstored.detached (h.tidy.solo hs himm)).1
  have hreplay : db.mutableTable = replayInto .empty (recordsOf M) := hstored.mutable
  rw [hreplay, hM]
  rfl

/-- The sections of `Flush` and `Compact`: the work under the lock, and its status. -/
theorem resume_acts {work : Act Unit}
    (hwork : Acts q (Remains F σ.format ρ) (At db (Steady F ρ σ db)) work
      (fun _ d st => Steady F ρ σ d st) (fun e d st => Steady F ρ σ d st ∧ Returns F ρ σ e)) :
    Acts q (Remains F σ.format ρ) (At db (Steady F ρ σ db))
      (do
        match ← Prog.attempt work with
        | .ok () => modifyDb (fun db => { db with backgroundStatus := .ok })
        | .error e => Prog.fail e)
      (fun _ => Continues F ρ σ) (fun e d st => Continues F ρ σ d st ∧ Returns F ρ σ e) := by
  refine Acts.attempt_bind hwork (fun _ => Acts.fix (fun d => ?_)) (fun e => Acts.fix (fun d => ?_))
  · refine Acts.modifyDb (fun st h => ?_)
    have hset := h.setControl (d := { d with backgroundStatus := .ok }) rfl rfl id
    refine hset.continues (Or.inr ?_)
    rw [← h.inv.control_eq]
    rfl
  · exact Acts.fail (fun st h => ⟨h.1.continues_same, h.2⟩)

/-- `Flush` and `Compact` return a sticky error before they do anything. -/
theorem sticky_acts {work : Database → Act Unit} (hok : ¬ σ.control.status.isOk = true) :
    Acts q (Remains F σ.format ρ) (At db (Steady F ρ σ db))
      (do
        let db ← getDb
        if !db.status.isOk then Prog.fail db.status else work db)
      (fun _ d st => Steady F ρ σ d st) (fun e d st => Steady F ρ σ d st ∧ Returns F ρ σ e) := by
  refine Acts.know (fun _ h => h.status_eq) (fun hstatus => Acts.getDb_bind (Acts.ite (fun _ => ?_)
    (fun hno => absurd ?_ hno)))
  · refine Acts.fail (fun st h => ⟨h, fun u => ?_⟩)
    rw [hstatus]
    exact u.sane.1
  · rw [hstatus]
    simpa using hok

theorem flushResume_acts (hF : F.Lawful) (hord : ρ.ordered) (hopen : σ.control.state ≠ .closed) :
    Acts q (Remains F σ.format ρ) (At db (Steady F ρ σ db)) (flushResume F)
      (fun _ => Continues F ρ σ) (fun e d st => Continues F ρ σ d st ∧ Returns F ρ σ e) := by
  refine resume_acts ?_
  by_cases hok : σ.control.status.isOk = true
  · exact (flushLocked_acts hF hord hopen hok).conseq (fun _ _ h => h) (fun _ _ _ h => h.1)
      (fun _ _ _ h => ⟨h.1, h.2.returns h.1.inv.contents⟩)
  · exact sticky_acts hok

theorem compactResume_acts (hF : F.Lawful) (hord : ρ.ordered) (hopen : σ.control.state ≠ .closed) :
    Acts q (Remains F σ.format ρ) (At db (Steady F ρ σ db)) (compactResume F)
      (fun _ => Continues F ρ σ) (fun e d st => Continues F ρ σ d st ∧ Returns F ρ σ e) := by
  refine resume_acts ?_
  by_cases hok : σ.control.status.isOk = true
  · refine Acts.know (fun st h => h.empty_of_immutable) (fun hempty => ?_)
    refine (compactLocked_acts hF hord hopen hok).conseq (fun _ _ h => h) (fun _ _ _ h => h.1) ?_
    rintro e d st ⟨h, hcause | ⟨-, himm, hne, -⟩⟩
    · exact ⟨h, fun u => (hcause u.limit).returns h.inv.contents u⟩
    · exact ⟨h, fun u => absurd (hempty u.durable u.single himm) hne⟩
  · exact sticky_acts hok

/-! ## Writes -/

/-- A write that has failed for good. -/
theorem Steady.continues_stuck (h : Steady F ρ (σ'.stuck e) d st) (he : e.Outer)
    (ho : σ'.options = σ.options) (hl : σ.lastSequence ≤ σ'.lastSequence)
    (hc : σ'.control = σ.control) : Continues F ρ σ d st := by
  have hscene := h.inv.scene
  have hcontrol := h.inv.control_eq
  have hk : d.control = { σ.control with status := e } := by
    rw [← hc]
    exact hcontrol
  refine ⟨h.of_scene, ?_, congrArg Control.state hk, congrArg Control.backgroundWorkRunning hk,
    congrArg Control.backgroundWorkRequested hk⟩
  rw [hscene]
  refine ⟨ho, hl, fun hok => ?_, fun hsane => ⟨he.not_corruption, ?_⟩⟩
  · rw [show (σ'.stuck e).control.status = e from rfl, he.not_ok] at hok
    cases hok
  · show σ'.control.backgroundStatus.code ≠ .corruption
    rw [hc]
    exact hsane.2

theorem Steady.continues_wrote (h : Steady F ρ ((σ.wrote r mode).under σ.control) d st)
    (hseq : r.sequence = σ.lastSequence + 1) : Continues F ρ σ d st := by
  have hscene := h.inv.scene
  have hcontrol := h.inv.control_eq
  refine ⟨h.of_scene, ?_, congrArg Control.state hcontrol,
    congrArg Control.backgroundWorkRunning hcontrol,
    congrArg Control.backgroundWorkRequested hcontrol⟩
  rw [hscene]
  exact ⟨rfl, Nat.le_succ _, fun hok => ⟨hok, Or.inr ⟨r, mode, rfl, hseq⟩⟩, id⟩

theorem WriteFailed.continues (hP : F.Portable) (h : WriteFailed F ρ σ q db r mode e d st)
    (htidy : db.Tidy ρ) (hseq : r.sequence = σ.lastSequence + 1) :
    Continues F ρ σ d st ∧ Returns F ρ σ e := by
  have hstuck : ∀ {σ' : Scene}, Steady F ρ (σ'.stuck e) d st → e.Outer → σ'.options = σ.options →
      σ.lastSequence ≤ σ'.lastSequence → σ'.control = σ.control →
      Continues F ρ σ d st ∧ Returns F ρ σ e :=
    fun h he ho hl hc => ⟨h.continues_stuck he ho hl hc, fun _ => he.not_corruption⟩
  cases h with
  | denied _ h hdenied =>
    refine ⟨h.continues_same, fun u => ?_⟩
    cases hdenied with
    | closed _ he => rw [he]; decide
    | background _ _ he => rw [he]; exact u.sane.2
    | sequence _ he => rw [he]; decide
    | detached _ he => rw [he]; decide
  | spoiled h hw hbad he =>
    refine hstuck h ?_ rfl (Nat.le_succ _) rfl
    rw [he]
    refine (htidy.writer _ hw).resolve_left (fun hok => ?_)
    rw [hok] at hbad
    cases hbad
  | refused h he => exact hstuck h (Or.inl (he.code hP)) rfl (Nat.le_succ _) rfl
  | doubt h he => exact hstuck h (Or.inr he) rfl (Nat.le_succ _) rfl
  | rotated h hc => exact ⟨h.continues_wrote hseq, hc.returns h.inv.contents⟩

/-- `Write` after its wait, in foreground mode. -/
theorem writeFinish_foreground {type : ValueType} {key value : Bytes} (hF : F.Lawful)
    (hP : F.Portable) (hord : ρ.ordered) (hmode : σ.options.backgroundMaintenance = false)
    (hwrite : ∀ r : Record, σ.control.status.isOk = true → σ.lastSequence < r.sequence →
      ρ.writes σ.history r mode) (hent : Entered σ db d) :
    Acts q (Remains F σ.format ρ) (At d (Steady F ρ σ d)) (writeFinish F type key value mode)
      (fun _ => Continues F ρ σ) (fun e d st => Continues F ρ σ d st ∧ Returns F ρ σ e) := by
  have hbg : ∀ {φ : Prop}, σ.options.backgroundMaintenance = true → φ := by
    intro φ h
    rw [hmode] at h
    cases h
  refine Acts.know (fun _ h => And.intro h.options_eq h.tidy) (fun ⟨hopt, htidy⟩ => ?_)
  refine Acts.know (fun st h => show d.lastSequence = σ.lastSequence from
    congrArg Scene.lastSequence h.inv.scene) (fun hlast => ?_)
  obtain ⟨r, hr⟩ : ∃ r : Record, r = ⟨key, d.lastSequence + 1, type, value⟩ := ⟨_, rfl⟩
  have hseq : r.sequence = σ.lastSequence + 1 := by rw [hr, ← hlast]
  refine (writeFinish_acts hF hord hr (hwrite r hent.status (by omega)) (fun _ c hc => ?_) (fun _ => hent.status)
    hbg (fun hfreeze => ?_)).conseq (fun _ _ h => h) ?_ (fun e d' st h => h.continues hP htidy hseq)
  · rw [(hent.foreground hmode).1] at hc
    cases hc
  · exact hbg (hopt ▸ hfreeze.background)
  · rintro _ d' st ⟨h, hrot⟩
    rw [hrot.foreground hmode] at h
    exact h.continues_wrote hseq

end

/-! ## Instances -/

/-- A call that writes with the mode. -/
def Action.Issues : Action → SyncMode → Prop
  | .call (.put _ _ m), mode => m = mode
  | .call (.delete _ m), mode => m = mode
  | _, _ => False

namespace Instance

/-- An instance without a worker: only `Close` parks, and it has one thread to join while it
is closing. -/
structure Fore (inst : Instance) : Prop where
  worker : inst.worker = .absent
  mode : inst.db.options.backgroundMaintenance = false
  running : inst.db.backgroundWorkRunning = false
  requested : inst.db.backgroundWorkRequested = false
  parked : ∀ p ∈ inst.parked, p = .closeJoin ∨ p = .closeWait
  joins : inst.parked.count .closeJoin = if inst.db.state = .closing then 1 else 0

/-- A closed instance; calls of `Close` may still have to return. -/
structure Inert (inst : Instance) : Prop where
  worker : inst.worker = .absent
  closed : inst.db.state = .closed
  parked : ∀ p ∈ inst.parked, p = .closeWait

/-- What a step makes of an open instance. -/
inductive Next (F : StorageFormat) (ρ : Regime) (σ : Scene) (inst : Instance) (st : Store) : Prop
  | running (fore : inst.Fore) (state : inst.db.state ≠ .closed)
      (steady : Steady F ρ (sceneOf inst.db st) inst.db st)
      (advances : Advances σ (sceneOf inst.db st))
  | closed (inert : inst.Inert) (remains : Remains F σ.format ρ st)
      (contents : ContentsInv ρ inst.db.contents)

/-- What a step returns, and what it makes of the instance. -/
def Proceeds (F : StorageFormat) (ρ : Regime) (σ : Scene) (r : Returned × Instance) (st : Store) :
    Prop :=
  Next F ρ σ r.2 st ∧ ∀ e, r.1 = some (.error e) → Returns F ρ σ e

section

variable {F : StorageFormat} {ρ : Regime} {σ : Scene} {inst : Instance} {d : Database} {st : Store}

theorem Fore.continues (h : inst.Fore) (hs : Steady F ρ σ inst.db st) {st' : Store}
    (hc : Continues F ρ σ d st') (hopen : inst.db.state ≠ .closed) :
    Next F ρ σ { inst with db := d } st' := by
  have hcontrol := hs.inv.control_eq
  have hstate : d.state = inst.db.state := by
    rw [hc.state, ← hcontrol]
    rfl
  refine .running ⟨h.worker, ?_, ?_, ?_, h.parked, ?_⟩ ?_ hc.steady hc.advances
  · rw [show d.options = σ.options from hc.advances.options, ← hs.options_eq]
    exact h.mode
  · show d.backgroundWorkRunning = false
    rw [hc.running, ← hcontrol]
    exact h.running
  · show d.backgroundWorkRequested = false
    rw [hc.requested, ← hcontrol]
    exact h.requested
  · show _ = if d.state = _ then 1 else 0
    rw [hstate]
    exact h.joins
  · show d.state ≠ _
    rw [hstate]
    exact hopen

theorem Fore.same (h : inst.Fore) (hopen : inst.db.state ≠ .closed) (hs : Steady F ρ σ inst.db st) :
    Next F ρ σ inst st := h.continues hs hs.continues_same hopen

/-- A `Close` that waits for another parks. -/
theorem Fore.park (h : inst.Fore) : (inst.park .closeWait).Fore := by
  refine ⟨h.worker, h.mode, h.running, h.requested, fun p hp => ?_, ?_⟩
  · rcases List.mem_append.mp hp with hp | hp
    · exact h.parked p hp
    · exact Or.inr (List.mem_singleton.mp hp)
  · show (inst.parked ++ [Parked.closeWait]).count Parked.closeJoin = _
    rw [List.count_append, h.joins]
    rfl

/-- A call that returns nothing yet. -/
theorem Next.proceeds (h : Next F ρ σ inst st) : Proceeds F ρ σ (none, inst) st := ⟨h, nofun⟩

theorem Fore.answer (h : inst.Fore) (hopen : inst.db.state ≠ .closed) {status : Status}
    (hstatus : Returns F ρ σ status) :
    Steps (Steady F ρ σ inst.db) (inst.answer status) (Proceeds F ρ σ) (Remains F σ.format ρ) := by
  refine Steps.pure (fun st hs => ⟨h.same hopen hs, fun e he => ?_⟩)
  have he : (if status.isOk then .ok () else .error status : Except Status Unit) = .error e :=
    Option.some.inj he
  split at he
  · cases he
  · rw [← Except.error.inj he]
    exact hstatus

/-- A call that runs one section to its end. -/
theorem Fore.complete (h : inst.Fore) (hopen : inst.db.state ≠ .closed) {m : Act Unit}
    (hm : Acts False (Remains F σ.format ρ) (At inst.db (Steady F ρ σ inst.db)) m
      (fun _ => Continues F ρ σ) (fun e d st => Continues F ρ σ d st ∧ Returns F ρ σ e)) :
    Steps (Steady F ρ σ inst.db) (inst.complete m) (Proceeds F ρ σ)
      (Remains F σ.format ρ) := by
  intro fs hs
  refine Prog.Triple.post hm.complete ?_ fs hs
  rintro ⟨a, i⟩ fs' ⟨d, rfl, hc, ha⟩
  exact ⟨h.continues hs hc hopen, ha⟩

/-- `Put` and `Delete`. -/
theorem Fore.write (hF : F.Lawful) (hP : F.Portable) (hord : ρ.ordered) (h : inst.Fore)
    (hopen : inst.db.state ≠ .closed)
    (type : ValueType) (key value : Bytes) (mode : SyncMode)
    (hwrite : ∀ r : Record, σ.control.status.isOk = true → σ.lastSequence < r.sequence →
      ρ.writes σ.history r mode) :
    Steps (Steady F ρ σ inst.db) (inst.write F type key value mode)
      (Proceeds F ρ σ) (Remains F σ.format ρ) := by
  refine Steps.ite (fun hbad => h.answer hopen (fun _ => ?_)) (fun _ => ?_)
  · rcases validateWalRecord_code inst.db.format ⟨key, 1, type, value⟩ with hok | hcode
    · rw [hok] at hbad
      cases hbad
    · rw [hcode]
      decide
  intro fs hs
  refine Steps.bind (S := fun r st => Steady F ρ σ r.2 st ∧ match r.1 with
    | .ok () => Entered σ inst.db r.2
    | .error e => Returns F ρ σ e) ?_ ?_ fs hs
  · refine Prog.Triple.post (writeEnter_acts hF hord mode).runSection ?_
    rintro ⟨result, d⟩ fs' hr
    cases result with
    | ok u => exact hr
    | error e =>
      obtain ⟨hst, hcause | hdenied⟩ := hr
      · exact ⟨hst, hcause.returns hst.inv.contents⟩
      · refine ⟨hst, fun u => ?_⟩
        cases hdenied with
        | closed _ he => rw [he]; decide
        | sticky _ he => rw [he]; exact u.sane.1
        | mode _ he => rw [he]; decide
  · rintro ⟨result, d⟩
    have hmode : σ.options.backgroundMaintenance = false := hs.options_eq ▸ h.mode
    cases result with
    | error e =>
      refine Steps.pure (fun st hr => ⟨h.continues hs hr.1.continues_same hopen, fun e' he => ?_⟩)
      rw [← Except.error.inj (Option.some.inj he)]
      exact hr.2
    | ok u =>
      refine Steps.know (fun _ hr => hr.2) (fun hent => ?_)
      refine Steps.know (fun _ hr => hr.1.options_eq) (fun hopt => Steps.ite (fun hblock => ?_)
        (fun _ => ?_))
      · -- the wait for the worker does not happen in this mode
        have hno : d.options.backgroundMaintenance = true := by
          simp only [writeBlocked, decide_eq_true_eq] at hblock
          exact hblock.1
        rw [hopt, hmode] at hno
        cases hno
      · intro fs' hr
        refine Prog.Triple.post
          (Acts.complete (writeFinish_foreground hF hP hord hmode hwrite hent)) ?_ fs' hr.1
        rintro ⟨a, i⟩ fs'' ⟨d', rfl, hc, ha⟩
        exact ⟨h.continues hs hc hopen, ha⟩

/-- `Close` up to the join. -/
theorem Fore.close (h : inst.Fore) (hrun : inst.db.state = .running) :
    Steps (Steady F ρ σ inst.db) (inst.call F .close) (Proceeds F ρ σ)
      (Remains F σ.format ρ) := by
  unfold Instance.call
  rw [hrun]
  dsimp only
  obtain ⟨d, hd⟩ : ∃ d : Database, d = { inst.db with state := .closing, stopBackground := true } :=
    ⟨_, rfl⟩
  have hbegin : Acts False (Remains F σ.format ρ) (At inst.db (Steady F ρ σ inst.db)) closeBegin
      (fun _ d' st => d' = d ∧ Steady F ρ (σ.under d.control) d st)
      (fun _ d' st => d' = d ∧ Steady F ρ (σ.under d.control) d st) := by
    refine Acts.modifyDb (fun st hs => ⟨hd.symm, ?_⟩)
    rw [hd]
    refine hs.setControl rfl rfl (fun _ => ?_)
    rw [hrun]
    decide
  refine Steps.know (fun _ hs => hs.inv.control_eq) (fun hcontrol => ?_)
  refine Steps.bind hbegin.runSection ?_
  rintro ⟨result, d'⟩
  refine Steps.pure (fun st hr => ?_)
  have hr : d' = d ∧ Steady F ρ (σ.under d.control) d st := by
    cases result with
    | ok u => exact hr
    | error e => exact hr
  obtain ⟨rfl, hs'⟩ := hr
  refine Next.proceeds (.running ⟨h.worker, ?_, ?_, ?_, fun p hp => ?_, ?_⟩ ?_ hs'.of_scene ?_)
  · show d'.options.backgroundMaintenance = false
    rw [hd]
    exact h.mode
  · show d'.backgroundWorkRunning = false
    rw [hd]
    exact h.running
  · show d'.backgroundWorkRequested = false
    rw [hd]
    exact h.requested
  · rcases List.mem_append.mp hp with hp | hp
    · exact h.parked p hp
    · exact Or.inl (List.mem_singleton.mp hp)
  · have hjoins := h.joins
    rw [hrun] at hjoins
    show (inst.parked ++ [Parked.closeJoin]).count Parked.closeJoin =
      if d'.state = .closing then 1 else 0
    rw [List.count_append, hjoins, hd]
    rfl
  · show d'.state ≠ .closed
    rw [hd]
    exact nofun
  · show Advances σ (sceneOf d' st)
    rw [hs'.inv.scene]
    refine ⟨rfl, le_refl _, fun hok => ⟨?_, Or.inl ⟨rfl, rfl⟩⟩, ?_⟩
    · rw [← hcontrol]
      rw [show (σ.under d'.control).control.status = d'.status from rfl, hd] at hok
      exact hok
    · rw [← hcontrol, hd]
      exact id

theorem Fore.call (hF : F.Lawful) (hP : F.Portable) (hord : ρ.ordered) (h : inst.Fore)
    (hopen : inst.db.state ≠ .closed)
    (c : Call) (hwrite : ∀ (r : Record) mode, (Action.call c).Issues mode →
      σ.control.status.isOk = true → σ.lastSequence < r.sequence → ρ.writes σ.history r mode) :
    Steps (Steady F ρ σ inst.db) (inst.call F c) (Proceeds F ρ σ)
      (Remains F σ.format ρ) := by
  have hnot : Steps (Steady F ρ σ inst.db) (inst.answer closedStatus)
      (Proceeds F ρ σ) (Remains F σ.format ρ) := h.answer hopen (fun _ => by decide)
  have hclosed : ∀ {st}, Steady F ρ σ inst.db st → σ.control.state ≠ .closed := by
    intro st hs
    rw [← hs.state_eq]
    exact hopen
  have hbusy : ∀ {φ : Prop}, inst.db.backgroundWorkRunning = true → φ := by
    intro φ hb
    rw [h.running] at hb
    cases hb
  cases c with
  | put key value mode => exact h.write hF hP hord hopen _ _ _ _ (fun r => hwrite r mode rfl)
  | delete key mode => exact h.write hF hP hord hopen _ _ _ _ (fun r => hwrite r mode rfl)
  | flush =>
    refine Steps.ite (fun _ => hnot) (fun _ => Steps.ite (fun hb => hbusy hb) (fun _ => ?_))
    exact Steps.know (fun _ hs => hclosed hs) (fun hne => h.complete hopen (flushResume_acts hF hord hne))
  | compact =>
    refine Steps.ite (fun _ => hnot) (fun _ => Steps.ite (fun hb => hbusy hb) (fun _ => ?_))
    exact Steps.know (fun _ hs => hclosed hs)
      (fun hne => h.complete hopen (compactResume_acts hF hord hne))
  | waitForBackgroundWork =>
    refine Steps.ite (fun _ => hnot) (fun _ => Steps.ite (fun hb => ?_) (fun _ => ?_))
    · rw [h.requested, h.running] at hb
      rcases hb with hb | hb
      · cases hb
      · cases hb
    · refine Steps.know (fun _ hs => hs.inv.control_eq) (fun hcontrol => h.answer hopen (fun u => ?_))
      rw [show inst.db.backgroundStatus = inst.db.control.backgroundStatus from rfl, hcontrol]
      exact u.sane.2
  | close =>
    cases hs : inst.db.state with
    | closed => exact absurd hs hopen
    | closing =>
      unfold Instance.call
      rw [hs]
      exact Steps.pure (fun st hst => (h.park.same hopen hst).proceeds)
    | running => exact h.close hs

/-- The `Close` that has joined the worker ends. -/
theorem Fore.join (hF : F.Lawful) (hord : ρ.ordered) (h : inst.Fore)
    (hopen : inst.db.state ≠ .closed) {position : Nat}
    (hp : inst.parked[position]? = some .closeJoin) :
    Steps (Steady F ρ σ inst.db) ((inst.unpark position).complete (closeFinish F))
      (Proceeds F ρ σ) (Remains F σ.format ρ) := by
  have hjoins := h.joins
  obtain ⟨hlt, hget⟩ := List.getElem?_eq_some_iff.mp hp
  have hmem : Parked.closeJoin ∈ inst.parked := List.mem_of_getElem? hp
  have hone : inst.parked.count .closeJoin = 1 := by
    have hpos := List.count_pos_iff.mpr hmem
    split at hjoins <;> omega
  have hgone : Parked.closeJoin ∉ inst.parked.eraseIdx position := by
    have hperm := (List.getElem_cons_eraseIdx_perm hlt).count_eq Parked.closeJoin
    rw [hget, List.count_cons_self, hone] at hperm
    rw [← List.count_eq_zero]
    omega
  intro fs hs
  have hstate : σ.control.state ≠ .closed := by
    rw [← hs.state_eq]
    exact hopen
  refine Prog.Triple.post (Acts.complete (Q := fun d st => Ended F ρ σ d st) (A := Returns F ρ σ)
    ((closeFinish_acts hF hord hstate).conseq (fun _ _ h => h) (fun _ _ _ h => h.1)
      (fun _ _ _ h => ⟨h.1, h.2.returns h.1.contents⟩))) ?_ fs hs
  rintro ⟨a, i⟩ fs' ⟨d, rfl, hend, ha⟩
  refine ⟨.closed ⟨h.worker, hend.closed, fun p hp' => ?_⟩ hend.remains hend.contents, ha⟩
  rcases h.parked p (List.mem_of_mem_eraseIdx hp') with rfl | rfl
  · exact absurd hp' hgone
  · rfl

theorem Fore.resume (hF : F.Lawful) (hord : ρ.ordered) (h : inst.Fore)
    (hopen : inst.db.state ≠ .closed) (position : Nat) :
    Steps (Steady F ρ σ inst.db) (inst.resume F position) (Proceeds F ρ σ)
      (Remains F σ.format ρ) := by
  have hidle : Steps (Steady F ρ σ inst.db) (pure (none, inst) : Io (Returned × Instance))
      (Proceeds F ρ σ) (Remains F σ.format ρ) :=
    Steps.pure (fun _ hs => (h.same hopen hs).proceeds)
  unfold Instance.resume
  cases hp : inst.parked[position]? with
  | none => exact hidle
  | some p =>
    rcases h.parked p (List.mem_of_getElem? hp) with rfl | rfl
    · dsimp only
      rw [h.worker]
      exact h.join hF hord hopen hp
    · exact Steps.ite (fun hc => absurd hc hopen) (fun _ => hidle)

/-- Every step of an open instance keeps it in order, or closes it. -/
theorem Fore.step (hF : F.Lawful) (hP : F.Portable) (hord : ρ.ordered) (h : inst.Fore)
    (hopen : inst.db.state ≠ .closed)
    (a : Action) (hwrite : ∀ (r : Record) mode, a.Issues mode →
      σ.control.status.isOk = true → σ.lastSequence < r.sequence → ρ.writes σ.history r mode) :
    Steps (Steady F ρ σ inst.db) (inst.step F a) (Proceeds F ρ σ)
      (Remains F σ.format ρ) := by
  cases a with
  | call c => exact h.call hF hP hord hopen c hwrite
  | resume position => exact h.resume hF hord hopen position
  | worker =>
    unfold Instance.step Instance.workerStep
    rw [h.worker]
    exact Steps.pure (fun _ hs => (h.same hopen hs).proceeds)

/-! ## Closed instances -/

/-- A closed instance touches no file. -/
theorem Inert.step (h : inst.Inert) (a : Action) (fs : Fs) :
    ∃ ret inst', inst.step F a fs = (.ok (ret, inst'), fs) ∧ inst'.Inert := by
  have hrun : inst.db.isRunning = false := by simp [Database.isRunning, h.closed]
  have hanswer : ∀ status, ∃ ret inst', inst.answer status fs = (.ok (ret, inst'), fs) ∧
      inst'.Inert := fun _ => ⟨_, inst, rfl, h⟩
  have hwrite : ∀ type key value mode, ∃ ret inst',
      inst.write F type key value mode fs = (.ok (ret, inst'), fs) ∧ inst'.Inert := by
    intro type key value mode
    unfold Instance.write
    dsimp only
    split
    · exact hanswer _
    · refine ⟨some (.error (.closed "database is not running")), inst, ?_, h⟩
      have henter : runSection inst.db (writeEnter F mode) fs =
          (.ok (.error (.closed "database is not running"), inst.db), fs) := by
        unfold runSection writeEnter
        simp [Prog.bind_apply, getDb, hrun, Prog.fail]
      rw [Prog.bind_of_ok henter]
      rfl
  cases a with
  | call c =>
    cases c with
    | put key value mode => exact hwrite _ _ _ _
    | delete key mode => exact hwrite _ _ _ _
    | flush =>
      unfold Instance.step Instance.call
      rw [hrun]
      exact hanswer _
    | compact =>
      unfold Instance.step Instance.call
      rw [hrun]
      exact hanswer _
    | waitForBackgroundWork =>
      unfold Instance.step Instance.call
      rw [hrun]
      exact hanswer _
    | close =>
      unfold Instance.step Instance.call
      rw [h.closed]
      exact hanswer _
  | resume position =>
    show ∃ ret inst', inst.resume F position fs = (.ok (ret, inst'), fs) ∧ inst'.Inert
    unfold Instance.resume
    cases hp : inst.parked[position]? with
    | none => exact ⟨none, inst, rfl, h⟩
    | some p =>
      obtain rfl := h.parked p (List.mem_of_getElem? hp)
      dsimp only
      rw [if_pos h.closed]
      refine ⟨_, inst.unpark position, rfl, h.worker, h.closed, fun q hq => ?_⟩
      exact h.parked q (List.mem_of_mem_eraseIdx hq)
  | worker =>
    unfold Instance.step Instance.workerStep
    rw [h.worker]
    exact ⟨none, inst, rfl, h⟩

end

end Instance

end MiniKV
