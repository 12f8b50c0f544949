import MiniKV.Sections.Foreground
import MiniKV.Sections.Opened

/-!
# Runs of a directory in foreground mode

A directory is opened, used, closed, left by a dying process or by a crash, and
opened again, with the same or with other options. `Sound` holds in every state
of such a run, whatever calls of the environment fail.
-/

namespace MiniKV

open Lib

/-- A step that opens no database with a worker. -/
def WorldEvent.Foreground : WorldEvent → Prop
  | .openDatabase o _ => o.backgroundMaintenance = false
  | _ => True

/-- The format options that a step may open the directory with. -/
def WorldEvent.Within (O : FormatOptions → Prop) : WorldEvent → Prop
  | .openDatabase o _ => O o.toFormatOptions
  | _ => True

/-- A step that writes with the mode. -/
def WorldEvent.Issues : WorldEvent → SyncMode → Prop
  | .act a _, mode => a.Issues mode
  | _, _ => False

/-- The account has a place for what the step may write. -/
def Regime.Permits (ρ : Regime) (w : World) (e : WorldEvent) : Prop :=
  ∀ inst, w.current = some inst → ∀ (r : Record) mode, e.Issues mode →
    inst.db.status.isOk = true → inst.db.lastSequence < r.sequence →
    ρ.writes w.store.history r mode

/-- How a directory is used in foreground mode. -/
structure Regime.Foreground (ρ : Regime) : Prop where
  crashes : ρ.crashes
  single : ρ.single
  durable : ρ.durable
  untraced : ¬ ρ.traced

/-- A directory in foreground mode, opened with any options. -/
def foreground (origin : List Label → List Entry → Prop) (writes : List Label → Record → SyncMode → Prop) : Regime where
  crashes := True
  single := True
  formats := fun _ => True
  origin := origin
  writes := writes
  ordered := True
  planned := True
  durable := True
  traced := False
  durable_imp := fun _ => ⟨trivial, trivial⟩
  traced_imp := False.elim
  single_imp := fun _ => trivial

/-- The account from a history with one known sequence of writes. -/
def accountFrom (H : List Label) (A : List Entry) : Regime :=
  foreground (fun H' A' => H' = H ∧ A' = A) (fun _ _ _ => True)

theorem foreground_foreground {origin : List Label → List Entry → Prop}
    {writes : List Label → Record → SyncMode → Prop} :
    (foreground origin writes).Foreground :=
  ⟨trivial, trivial, trivial, id⟩

theorem foreground_within {origin : List Label → List Entry → Prop}
    {writes : List Label → Record → SyncMode → Prop}
    (e : WorldEvent) : e.Within (foreground origin writes).formats := by
  cases e <;> trivial

/-- What holds in every state of a run. -/
structure Sound (F : StorageFormat) (ρ : Regime) (w : World) : Prop where
  kept : w.current = none → Kept F ρ.toUsage w.store
  fore : ∀ inst, w.current = some inst → inst.Fore
  open' : ∀ inst, w.current = some inst → inst.db.state ≠ .closed
  steady : ∀ inst, w.current = some inst →
    Steady F ρ (sceneOf inst.db w.store) inst.db w.store
  closed : ∀ inst ∈ w.closed, inst.Inert

/-- How a step comes to the instance that is open after it: it was open before, or the step
has opened it. -/
inductive Arrives (F : StorageFormat) (ρ : Regime) (w : World) (e : WorldEvent) (w' : World)
    (inst' : Instance) : Prop
  | stayed {inst : Instance} (current : w.current = some inst)
      (advances : Advances (sceneOf inst.db w.store) (sceneOf inst'.db w'.store))
  | opened {o₀ : FormatOptions} {o : Options} {v : Version} {ts : List SSTableReader}
      {T I M : List Entry} (current : w.current = none)
      (opened : Opened F ρ.toUsage w'.store.history o₀ o v ts T I M inst'.db w'.store)
      (history : w'.store.history = w.store.history)
      (event : ∃ script, e = .openDatabase o script)

section

variable {F : StorageFormat} {ρ : Regime} {w w' : World} {inst inst' : Instance}

theorem Steady.known {σ : Scene} {db : Database} {st : Store} (h : Steady F ρ σ db st)
    (hd : ρ.durable) : ρ.formats σ.format := by
  obtain ⟨T, I, D, M, X, hs⟩ := (h.inv.stored hd).current
  rw [← h.inv.format_eq]
  exact hs.known

theorem Steady.kept {σ : Scene} {db : Database} {st : Store} (h : Steady F ρ σ db st)
    (hd : ρ.durable) : Kept F ρ.toUsage st :=
  h.inv.remains.kept hd (h.known hd)

/-- What a directory keeps, with or without an open database. -/
theorem Sound.kept' (h : Sound F ρ w) (hd : ρ.durable) : Kept F ρ.toUsage w.store := by
  cases hc : w.current with
  | none => exact h.kept hc
  | some inst => exact (h.steady inst hc).kept hd

theorem Sound.idle (hk : Kept F ρ.toUsage w.store) (hc : w.current = none)
    (hcl : ∀ inst ∈ w.closed, inst.Inert) : Sound F ρ w := by
  refine ⟨fun _ => hk, ?_, ?_, ?_, hcl⟩
  all_goals
    intro inst hi
    rw [hc] at hi
    cases hi

theorem Sound.empty {o : FormatOptions} (ho : ρ.formats o) (hρ : ρ.origin [] []) :
    Sound F ρ World.empty :=
  .idle (kept_empty ho hρ) rfl (fun _ hi => absurd hi List.not_mem_nil)

theorem Sound.running (hf : inst.Fore) (hopen : inst.db.state ≠ .closed)
    (hs : Steady F ρ (sceneOf inst.db w.store) inst.db w.store) (hc : w.current = some inst)
    (hcl : ∀ inst ∈ w.closed, inst.Inert) : Sound F ρ w := by
  refine ⟨fun hno => ?_, fun i hi => ?_, fun i hi => ?_, fun i hi => ?_, hcl⟩
  · rw [hc] at hno
    cases hno
  all_goals
    rw [hc] at hi
    obtain rfl := Option.some.inj hi
  · exact hf
  · exact hopen
  · exact hs

/-! ## Opening -/

theorem Opened.fore {κ : Usage} {H : List Label} {o₀ : FormatOptions} {o : Options} {v : Version}
    {ts : List SSTableReader} {T I M : List Entry} {db : Database} {st : Store}
    (h : Opened F κ H o₀ o v ts T I M db st) (hfg : o.backgroundMaintenance = false) :
    (Instance.ofDatabase db).Fore := by
  obtain ⟨r, i, -, -, rfl⟩ := h.members
  refine ⟨?_, hfg, rfl, ?_, nofun, rfl⟩
  · unfold Instance.ofDatabase newDatabase
    rw [hfg]
    rfl
  · show (o.backgroundMaintenance && _) = false
    rw [hfg]
    rfl

theorem Opened.state {κ : Usage} {H : List Label} {o₀ : FormatOptions} {o : Options} {v : Version}
    {ts : List SSTableReader} {T I M : List Entry} {db : Database} {st : Store}
    (h : Opened F κ H o₀ o v ts T I M db st) : db.state = .running ∧ db.status = .ok := by
  obtain ⟨r, i, -, -, rfl⟩ := h.members
  exact ⟨rfl, rfl⟩

theorem Sound.opens (hF : F.Lawful) (hP : F.Portable) (hρ : ρ.Foreground) (h : Sound F ρ w)
    (hc : w.current = none) {o : Options} (hfg : o.backgroundMaintenance = false)
    (ho : ρ.formats o.toFormatOptions) (script : List Outcome) :
    Sound F ρ (w.step F (.openDatabase o script)) ∧
      ∀ inst', (w.step F (.openDatabase o script)).current = some inst' →
        Arrives F ρ w (.openDatabase o script) (w.step F (.openDatabase o script)) inst' := by
  have hopen := openWithEnvironment_kept (q := False) (H := w.store.history) hF hP ho
    { store := w.store, script := script } ⟨nofun, h.kept hc, rfl⟩
  unfold World.step
  rw [hc]
  dsimp only
  match hm : openWithEnvironment F o { store := w.store, script := script } with
  | (.ok (db, result), fs) =>
    rw [hm] at hopen
    obtain ⟨-, hk, hH, o₀, v, ts, T, I, M, hop⟩ := hopen
    have hs := hop.steady hF hP (fun ht => absurd ht hρ.untraced) hk.wf hH
    refine ⟨.running (hop.fore hfg) ?_ hs rfl h.closed, fun inst' hi => ?_⟩
    · show db.state ≠ .closed
      rw [hop.state.1]
      decide
    · obtain rfl := Option.some.inj hi
      rw [← hH] at hop
      exact .opened hc hop hH ⟨script, rfl⟩
  | (.error e, fs) =>
    rw [hm] at hopen
    exact ⟨.idle hopen.2.1 rfl h.closed, fun inst' hi => by cases hi⟩
  | (.killed, fs) =>
    rw [hm] at hopen
    exact ⟨.idle hopen.2 rfl h.closed, fun inst' hi => by cases hi⟩

/-! ## Steps of instances -/

theorem Sound.acts (hF : F.Lawful) (hP : F.Portable) (hρ : ρ.Foreground) (h : Sound F ρ w)
    (hc : w.current = some inst)
    (a : Action) (script : List Outcome) (hwrite : ρ.Permits w (.act a script)) :
    Sound F ρ (w.step F (.act a script)) ∧
      ∀ inst', (w.step F (.act a script)).current = some inst' →
        Arrives F ρ w (.act a script) (w.step F (.act a script)) inst' := by
  have hs := h.steady inst hc
  have hstep := (h.fore inst hc).step (σ := sceneOf inst.db w.store) hF hP
    (ρ.durable_imp hρ.durable).1 (h.open' inst hc) a
    (fun r mode => hwrite inst hc r mode) { store := w.store, script := script } hs
  have hknown := hs.known hρ.durable
  unfold World.step
  rw [hc]
  dsimp only
  match hm : inst.step F a { store := w.store, script := script } with
  | (.ok (ret, inst₁), fs) =>
    rw [hm] at hstep
    dsimp only at hstep ⊢
    unfold World.settle
    cases hstep.1 with
    | running hf hopen hs' hadv =>
      rw [if_neg hopen]
      refine ⟨.running hf hopen hs' rfl h.closed, fun inst' hi => ?_⟩
      obtain rfl := Option.some.inj hi
      exact .stayed hc hadv
    | closed hi hr hcontents =>
      rw [if_pos hi.closed]
      refine ⟨.idle (hr.kept hρ.durable hknown) rfl (fun i hmem => ?_), fun inst' hi => by cases hi⟩
      rcases List.mem_append.mp hmem with hmem | hmem
      · exact h.closed i hmem
      · rw [List.mem_singleton.mp hmem]
        exact hi
  | (.error e, fs) =>
    rw [hm] at hstep
    exact hstep.elim
  | (.killed, fs) =>
    rw [hm] at hstep
    exact ⟨.idle (Remains.kept hstep hρ.durable hknown) rfl h.closed, fun inst' hi => by cases hi⟩

/-- A closed instance changes nothing but itself. -/
theorem step_actClosed (h : ∀ inst ∈ w.closed, inst.Inert) (position : Nat) (a : Action)
    (script : List Outcome) :
    ∃ closed, w.step F (.actClosed position a script) = { w with closed := closed } ∧
      ∀ inst ∈ closed, inst.Inert := by
  unfold World.step
  dsimp only
  cases hp : w.closed[position]? with
  | none => exact ⟨w.closed, rfl, h⟩
  | some inst =>
    have hi := h inst (List.mem_of_getElem? hp)
    obtain ⟨ret, inst₁, hrun, hi'⟩ :=
      hi.step (F := F) a { store := w.store, script := script }
    dsimp only
    rw [hrun]
    refine ⟨w.closed.set position inst₁, rfl, fun i hmem => ?_⟩
    rcases List.mem_or_eq_of_mem_set hmem with hmem | rfl
    · exact h i hmem
    · exact hi'

theorem Sound.setClosed (h : Sound F ρ w) {closed : List Instance}
    (hcl : ∀ inst ∈ closed, inst.Inert) : Sound F ρ { w with closed := closed } :=
  ⟨h.kept, h.fore, h.open', h.steady, hcl⟩

theorem arrives_same {e : WorldEvent} (hc : w.current = some inst) (hstore : w'.store = w.store) :
    Arrives F ρ w e w' inst := by
  refine .stayed hc ?_
  rw [hstore]
  exact Advances.refl _

/-- One step of a run. -/
theorem Sound.step (hF : F.Lawful) (hP : F.Portable) (hρ : ρ.Foreground) (h : Sound F ρ w)
    {e : WorldEvent} (hwrite : ρ.Permits w e) (he : e.Foreground) (ho : e.Within ρ.formats) :
    Sound F ρ (w.step F e) ∧
      ∀ inst', (w.step F e).current = some inst' → Arrives F ρ w e (w.step F e) inst' := by
  cases e with
  | openDatabase o script =>
    cases hc : w.current with
    | none => exact h.opens hF hP hρ hc he ho script
    | some inst =>
      have hsame : w.step F (.openDatabase o script) = w := by
        unfold World.step
        rw [hc]
      rw [hsame]
      exact ⟨h, fun inst' hi => arrives_same hi rfl⟩
  | act a script =>
    cases hc : w.current with
    | some inst => exact h.acts hF hP hρ hc a script hwrite
    | none =>
      have hsame : w.step F (.act a script) = w := by
        unfold World.step
        rw [hc]
      rw [hsame]
      exact ⟨h, fun inst' hi => arrives_same hi rfl⟩
  | actClosed position a script =>
    obtain ⟨closed, hstep, hcl⟩ := step_actClosed (F := F) h.closed position a script
    rw [hstep]
    exact ⟨h.setClosed hcl, fun inst' hi => arrives_same hi rfl⟩
  | kill => exact ⟨.idle (h.kept' hρ.durable) rfl h.closed, fun inst' hi => by cases hi⟩
  | drop position =>
    exact ⟨h.setClosed (fun i hi => h.closed i (List.mem_of_mem_eraseIdx hi)),
      fun inst' hi => arrives_same hi rfl⟩
  | crash directory cut =>
    exact ⟨.idle ((h.kept' hρ.durable).crash hρ.crashes directory cut) rfl
      (fun _ hi => absurd hi List.not_mem_nil),
      fun inst' hi => by cases hi⟩

/-- What every step keeps holds after a run. -/
theorem World.run_keeps {Φ : World → Prop} {P : WorldEvent → Prop}
    (hstep : ∀ w e, P e → Φ w → Φ (w.step F e)) {es : List WorldEvent} (hes : ∀ e ∈ es, P e)
    (h : Φ w) : Φ (w.run F es) := by
  induction es generalizing w with
  | nil => exact h
  | cons e es ih =>
    exact ih (fun x hx => hes x (List.mem_cons_of_mem _ hx)) (hstep w e (hes e List.mem_cons_self) h)

end

end MiniKV
