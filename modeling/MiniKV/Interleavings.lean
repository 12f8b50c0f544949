import MiniKV.Background

/-!
# Reads and writes of one open database

Any interleaving of the sections of its calls with the worker, in either mode,
whatever calls of the environment fail, also beside a compaction that waits: the
database shows what it showed at the beginning and the writes that have been
committed since. A write that returns OK is committed in the step that returns.
-/

namespace MiniKV

open Lib

/-- The records that have been committed, oldest first. -/
def committed : List Label → List Record
  | [] => []
  | .appended r _ :: H => committed H ++ [r]
  | .inDoubt _ :: H => committed H
  | .crashed :: H => committed H

/-- A step of the open database, or a call on one that is closed. -/
def WorldEvent.Inside : WorldEvent → Prop
  | .act _ _ => True
  | .actClosed _ a _ => ∃ c, a = .call c
  | .drop _ => True
  | _ => False

/-- An open database of which only its reads matter: any write may be made at any time. -/
def reading (o : FormatOptions) : Regime where
  crashes := False
  single := False
  formats := fun o' => o' = o
  origin := fun _ _ => True
  writes := fun _ _ _ => True
  ordered := True
  planned := False
  durable := False
  traced := False
  durable_imp := False.elim
  traced_imp := False.elim
  single_imp := False.elim

/-- What has become of a scene since another one: what is visible follows from the writes that
were committed, and every append had a larger sequence number than those before it. -/
structure Tracks (σ₁ : Scene) (new : List Label) (σ : Scene) : Prop where
  history : σ.history = new ++ σ₁.history
  view : σ.view = applyLog σ₁.view (committed new)
  last : σ₁.lastSequence ≤ σ.lastSequence
  rising : (attempts new).Pairwise (fun a b => a.sequence < b.sequence)
  within : ∀ r ∈ attempts new, σ₁.lastSequence < r.sequence ∧ r.sequence ≤ σ.lastSequence

section

variable {F : StorageFormat} {ρ ρ' : Regime} {q : Prop} {o : FormatOptions} {w : World}
  {inst : Instance} {st : Store} {m : Bytes → Option Bytes} {σ₁ σ σ' : Scene} {new : List Label}
  {write : Option (Record × SyncMode)} {ret : Returned}

theorem Instance.Joint.alike (ha : ρ.Alike ρ') (hd : ¬ ρ'.durable)
    (h : inst.Joint F ρ q st) : inst.Joint F ρ' q st where
  steady := ⟨h.steady.inv.alike ha (fun hno => absurd hno hd), h.steady.tidy.alike ha⟩
  worker := h.worker
  state := h.state
  stop := h.stop
  joins := h.joins
  writers := h.writers
  modes := fun hbg hs => h.modes hbg (ha.single hs)

theorem reading_takes (db : Database) (H : List Label) (r : Record) (mode : SyncMode) :
    (reading o).Takes db H r mode := ⟨trivial, False.elim, fun _ => False.elim⟩

theorem alike_reading (crashes : Prop) : (shared crashes o).Alike (reading o) :=
  ⟨False.elim, False.elim, rfl, fun _ => trivial, False.elim, False.elim, False.elim⟩

/-- The next append. -/
theorem Tracks.attempt (h : Tracks σ₁ new σ) {r : Record} (hr : r.sequence = σ.lastSequence + 1) :
    (attempts new ++ [r]).Pairwise (fun a b => a.sequence < b.sequence) ∧
      ∀ s ∈ attempts new ++ [r],
        σ₁.lastSequence < s.sequence ∧ s.sequence ≤ σ.lastSequence + 1 := by
  have hlast := h.last
  constructor
  · apply List.pairwise_append.mpr
    refine ⟨h.rising, List.pairwise_singleton _ _, fun s hs t ht => ?_⟩
    rw [List.mem_singleton.mp ht, hr]
    exact Nat.lt_succ_of_le (h.within s hs).2
  · intro s hs
    rcases List.mem_append.mp hs with hs | hs
    · have hw := h.within s hs
      omega
    · rw [List.mem_singleton.mp hs]
      omega

/-- A step keeps track: at most the write that it carries is added. -/
theorem Tracks.evolves (h : Tracks σ₁ new σ) (he : Evolves σ write ret σ')
    (hseq : ∀ r mode, write = some (r, mode) → r.sequence = σ.lastSequence + 1) :
    ∃ new', Tracks σ₁ new' σ' := by
  have hlast := h.last
  cases he with
  | same data =>
    rw [data]
    exact ⟨new, h.history, h.view, h.last, h.rising, h.within⟩
  | @wrote r mode hcarried data =>
    obtain ⟨hrising, hwithin⟩ := h.attempt (hseq r mode hcarried)
    rw [data]
    refine ⟨.appended r mode :: new, congrArg (Label.appended r mode :: ·) h.history, ?_,
      Nat.le_succ_of_le h.last, hrising, hwithin⟩
    show Function.update σ.view r.key r.visible = applyLog σ₁.view (committed new ++ [r])
    rw [applyLog_append, ← h.view]
    rfl
  | raised _ data =>
    rw [data]
    refine ⟨new, h.history, h.view, Nat.le_succ_of_le h.last, h.rising, fun r hr => ?_⟩
    exact ⟨(h.within r hr).1, Nat.le_succ_of_le (h.within r hr).2⟩
  | @doubt r mode hcarried data =>
    obtain ⟨hrising, hwithin⟩ := h.attempt (hseq r mode hcarried)
    rw [data]
    exact ⟨.inDoubt r :: new, congrArg (Label.inDoubt r :: ·) h.history, h.view,
      Nat.le_succ_of_le h.last, hrising, hwithin⟩

theorem Instance.carries_sequence {a : Action} {r : Record} {mode : SyncMode}
    (h : inst.carries a = some (r, mode)) : r.sequence = inst.db.lastSequence + 1 := by
  unfold Instance.carries at h
  split at h
  · cases h
    rfl
  · cases h
    rfl
  · split at h
    · cases h
      rfl
    · cases h
  · cases h

theorem Evolves.format_eq (h : Evolves σ write ret σ') : σ'.format = σ.format := by
  cases h with
  | same data => rw [data]; rfl
  | wrote _ data => rw [data]; rfl
  | raised _ data => rw [data]; rfl
  | doubt _ data => rw [data]; rfl

/-- What holds while one database is open. -/
structure Followed (F : StorageFormat) (o : FormatOptions) (σ₁ : Scene) (w : World)
    (inst : Instance) : Prop where
  joint : inst.Joint F (reading o) False w.store
  known : inst.db.format = o
  tracks : ∃ new, Tracks σ₁ new (sceneOf inst.db w.store)
  closed : ∀ i ∈ w.closed, i.Rests

/-- One step of the open database. -/
theorem Followed.acts (hF : F.Lawful) (hP : F.Portable) (h : Followed F o σ₁ w inst)
    (hc : w.current = some inst) (a : Action) (script : List Outcome) :
    ∀ i, (w.step F (.act a script)).current = some i →
      Followed F o σ₁ (w.step F (.act a script)) i := by
  have hstep := Instance.Joint.step (q := False) (σ := sceneOf inst.db w.store) hF hP trivial a
    (fun r mode _ => reading_takes inst.db _ r mode) { store := w.store, script := script }
    ⟨nofun, h.joint, rfl⟩
  intro i
  unfold World.step
  rw [hc]
  dsimp only
  match hm : inst.step F a { store := w.store, script := script } with
  | (.ok (ret, inst'), fs) =>
    rw [hm] at hstep
    dsimp only at hstep ⊢
    unfold World.settle
    cases hstep.2 with
    | on hj he =>
      have hopen : inst'.db.state ≠ .closed := hj.state
      rw [if_neg hopen]
      intro hi
      obtain rfl : inst' = i := Option.some.inj hi
      obtain ⟨new, htracks⟩ := h.tracks
      have hnext := htracks.evolves he (fun r mode => Instance.carries_sequence)
      exact ⟨hj, he.format_eq.trans h.known, hnext, h.closed⟩
    | closed _ _ hended =>
      have hclosed : inst'.db.state = .closed := congrArg Database.state hended
      rw [if_pos hclosed]
      intro hi
      cases hi
  | (.error e, fs) =>
    rw [hm] at hstep
    exact hstep.elim
  | (.killed, fs) =>
    intro hi
    cases hi

theorem Followed.step (hF : F.Lawful) (hP : F.Portable) {e : WorldEvent} (he : e.Inside)
    (h : ∀ inst, w.current = some inst → Followed F o σ₁ w inst) :
    ∀ inst, (w.step F e).current = some inst → Followed F o σ₁ (w.step F e) inst := by
  cases e with
  | openDatabase o script => exact he.elim
  | act a script =>
    cases hc : w.current with
    | some inst => exact (h inst hc).acts hF hP hc a script
    | none =>
      have hsame : w.step F (.act a script) = w := by
        unfold World.step
        rw [hc]
      rw [hsame]
      exact h
  | actClosed position a script =>
    obtain ⟨c, rfl⟩ := he
    intro inst hi
    cases hc : w.current with
    | some inst₀ =>
      have h₀ := h inst₀ hc
      have hcall : ∀ i, w.closed[position]? = some i → i.wakes (.call c) = false := fun _ _ => rfl
      obtain ⟨closed, hstep, hcl⟩ := step_actClosed_rests (F := F) h₀.closed hcall script
      rw [hstep] at hi ⊢
      obtain rfl : inst₀ = inst := Option.some.inj (hc.symm.trans hi)
      exact ⟨h₀.joint, h₀.known, h₀.tracks, hcl⟩
    | none =>
      -- a closed database opens nothing
      have hnone : (w.step F (.actClosed position (.call c) script)).current = w.current := by
        unfold World.step
        dsimp only
        split
        · rfl
        · split <;> rfl
      rw [hnone, hc] at hi
      cases hi
  | kill => exact he.elim
  | drop position =>
    intro inst hi
    have h₀ := h inst hi
    exact ⟨h₀.joint, h₀.known, h₀.tracks, fun i hmem => h₀.closed i (List.mem_of_mem_eraseIdx hmem)⟩
  | crash directory cut => exact he.elim

theorem Followed.run (hF : F.Lawful) (hP : F.Portable) {es : List WorldEvent}
    (hes : ∀ e ∈ es, e.Inside)
    (h : ∀ inst, w.current = some inst → Followed F o σ₁ w inst) :
    ∀ inst, (w.run F es).current = some inst → Followed F o σ₁ (w.run F es) inst :=
  World.run_keeps (Φ := fun w => ∀ inst, w.current = some inst → Followed F o σ₁ w inst)
    (fun _ _ he hw => Followed.step hF hP he hw) hes h

/-- An open database of a run that keeps to the protocol may be followed from there on. -/
theorem Held.follow {crashes : Prop} (h : Held F (shared crashes o) w)
    (hc : w.current = some inst) :
    Followed F o (sceneOf inst.db w.store) w inst where
  joint := (h.joint inst hc).alike (alike_reading crashes) id
  known := (h.joint inst hc).steady.known trivial
  tracks := ⟨[], rfl, rfl, Nat.le_refl _, List.Pairwise.nil,
    fun _ hr => absurd hr List.not_mem_nil⟩
  closed := h.closed

/-- A replay changes a key in the same way whatever the other keys have. -/
theorem applyLog_congr {m' : Bytes → Option Bytes} {k : Bytes} (h : m k = m' k)
    (rs : List Record) : applyLog m rs k = applyLog m' rs k := by
  induction rs generalizing m m' with
  | nil => exact h
  | cons r rs ih =>
    apply ih
    show Function.update m r.key r.visible k = Function.update m' r.key r.visible k
    by_cases hk : k = r.key
    · rw [hk, Function.update_self, Function.update_self]
    · rw [Function.update_of_ne hk, Function.update_of_ne hk]
      exact h

/-- The state of one open database, at the beginning and later. -/
theorem Held.later {shape : BloomShape} {crashes : Bool} {before steps : List WorldEvent}
    (hbefore : World.empty.along (fileFormat shape) (disciplined crashes)
      before = true)
    (ho : ∀ e ∈ before, e.Within (· = o)) (hsteps : ∀ e ∈ steps, e.Inside) {w₁ w₂ : World}
    (hw₁ : w₁ = World.empty.run (fileFormat shape) before)
    (hw₂ : w₂ = w₁.run (fileFormat shape) steps) {inst₁ inst₂ : Instance}
    (h₁ : w₁.current = some inst₁) (h₂ : w₂.current = some inst₂) :
    Followed (fileFormat shape) o (sceneOf inst₁.db w₁.store) w₁ inst₁ ∧
      Followed (fileFormat shape) o (sceneOf inst₁.db w₁.store) w₂ inst₂ := by
  have hF := fileFormat_lawful shape
  have hP := fileFormat_portable shape
  have hfirst := (World.along_held hbefore ho hw₁).follow h₁
  have hlater : ∀ i, (w₁.run (fileFormat shape) steps).current = some i →
      Followed (fileFormat shape) o (sceneOf inst₁.db w₁.store) (w₁.run (fileFormat shape) steps) i
      := by
    apply Followed.run hF hP hsteps
    intro i hi
    rw [← Option.some.inj (h₁.symm.trans hi)]
    exact hfirst
  rw [← hw₂] at hlater
  exact ⟨hfirst, hlater inst₂ h₂⟩

end

/-- In every state of one open database, over any interleaving of its calls with the worker, in
either mode and whatever calls of the environment fail: `Get` on a valid key answers what the
database answered at the beginning, with the writes that have been committed since on top. The
beginning is any moment of a run that keeps to the protocol, such as the return of an `Open`. -/
theorem interleaved_reads {shape : BloomShape} {crashes : Bool} {o : FormatOptions}
    {before steps : List WorldEvent}
    (hbefore : World.empty.along (fileFormat shape) (disciplined crashes)
      before = true)
    (ho : ∀ e ∈ before, e.Within (· = o)) (hsteps : ∀ e ∈ steps, e.Inside) {w₁ w₂ : World}
    (hw₁ : w₁ = World.empty.run (fileFormat shape) before)
    (hw₂ : w₂ = w₁.run (fileFormat shape) steps) {inst₁ inst₂ : Instance}
    (h₁ : w₁.current = some inst₁) (h₂ : w₂.current = some inst₂)
    (hrun₁ : inst₁.db.state = .running) (hrun₂ : inst₂.db.state = .running) :
    ∃ new, w₂.store.history = new ++ w₁.store.history ∧
      ∀ m : Bytes → Option Bytes, (∀ k, ValidKey o k → Answers (m k) (inst₁.db.get k)) →
        ∀ k, ValidKey o k → Answers (applyLog m (committed new) k) (inst₂.db.get k) := by
  obtain ⟨hfirst, hlater⟩ := Held.later hbefore ho hsteps hw₁ hw₂ h₁ h₂
  obtain ⟨new, htracks⟩ := hlater.tracks
  refine ⟨new, htracks.history, fun m hm k hk => ?_⟩
  have hbase : m k = inst₁.db.contents.view k := by
    apply Answers.unique (hm k hk)
    apply Database.get_answers hfirst.joint.steady.inv.contents hrun₁
    rw [hfirst.known]
    exact hk
  have hnow : inst₂.db.contents.view k = applyLog m (committed new) k :=
    (congrFun htracks.view k).trans (applyLog_congr hbase _).symm
  rw [← hnow]
  apply Database.get_answers hlater.joint.steady.inv.contents hrun₂
  rw [hlater.known]
  exact hk

/-- The first write of a database with a worker fills the Mutable. A second one is made, and a
`Compact` waits, while the worker publishes the table; it cannot sync it, and then the `Compact`
publishes it. -/
def busyWorker : List WorldEvent :=
  [.act (.call (.put [1] [7] .sync)) [], .act .worker [], .act .worker [],
    .act (.call (.put [2] [8] .async)) [], .act (.call .compact) [], .act .worker [],
    .act .worker [.fail 0], .act .worker [], .act .worker [], .act (.resume 0) []]

def openedWorker : List WorldEvent :=
  [.openDatabase { backgroundMaintenance := true, memtableSizeLimit := 1 } []]

def busyWorld : World :=
  (World.empty.run (fileFormat byteShape) openedWorker).run (fileFormat byteShape) busyWorker

theorem openedWorker_along : World.empty.along (fileFormat byteShape)
    (disciplined true) openedWorker = true := by decide +kernel

theorem openedWorker_within :
    ∀ e ∈ openedWorker, e.Within (· = ({} : Options).toFormatOptions) := by
  simp [openedWorker, WorldEvent.Within]

theorem busyWorker_inside : ∀ e ∈ busyWorker, e.Inside := by
  simp [busyWorker, WorldEvent.Inside]

/-- An open and running database, as far as it can be computed. -/
theorem World.running_of_state {w : World}
    (h : w.current.map (fun inst => inst.db.state) = some .running) :
    ∃ inst, w.current = some inst ∧ inst.db.state = .running :=
  Option.map_eq_some_iff.mp h

/-- In such a run each of the two writes is visible, whatever the database showed before. -/
theorem interleaved_reads_busyWorker : ∃ inst₁ inst₂ : Instance, busyWorld.current = some inst₂ ∧
    ∀ m : Bytes → Option Bytes,
      (∀ k, ValidKey ({} : Options).toFormatOptions k → Answers (m k) (inst₁.db.get k)) →
      Answers (some [7]) (inst₂.db.get [1]) ∧ Answers (some [8]) (inst₂.db.get [2]) := by
  obtain ⟨inst₁, h₁, hrun₁⟩ := World.running_of_state
    (w := World.empty.run (fileFormat byteShape) openedWorker) (by decide +kernel)
  obtain ⟨inst₂, h₂, hrun₂⟩ := World.running_of_state (w := busyWorld) (by decide +kernel)
  obtain ⟨new, hH, hreads⟩ := interleaved_reads openedWorker_along openedWorker_within
    busyWorker_inside rfl rfl h₁ h₂ hrun₁ hrun₂
  have hall : busyWorld.store.history =
      [.appended ⟨[2], 2, .value, [8]⟩ .async, .appended ⟨[1], 1, .value, [7]⟩ .sync] := by
    decide +kernel
  have hbefore : (World.empty.run (fileFormat byteShape) openedWorker).store.history = [] := by
    decide +kernel
  have hnew : committed new = [⟨[1], 1, .value, [7]⟩, ⟨[2], 2, .value, [8]⟩] := by
    have hH : busyWorld.store.history = new ++ _ := hH
    rw [hbefore, List.append_nil, hall] at hH
    rw [← hH]
    rfl
  rw [hnew] at hreads
  refine ⟨inst₁, inst₂, h₂, fun m hm => ⟨?_, ?_⟩⟩
  · exact hreads m hm [1] ⟨by simp, by decide⟩
  · exact hreads m hm [2] ⟨by simp, by decide⟩

/-- The sequence numbers of all writes that one open database tries to append rise in the order
of its history, above all that it had used before, and none is above its counter. -/
theorem interleaved_sequences {shape : BloomShape} {crashes : Bool} {o : FormatOptions}
    {before steps : List WorldEvent}
    (hbefore : World.empty.along (fileFormat shape) (disciplined crashes)
      before = true)
    (ho : ∀ e ∈ before, e.Within (· = o)) (hsteps : ∀ e ∈ steps, e.Inside) {w₁ w₂ : World}
    (hw₁ : w₁ = World.empty.run (fileFormat shape) before)
    (hw₂ : w₂ = w₁.run (fileFormat shape) steps) {inst₁ inst₂ : Instance}
    (h₁ : w₁.current = some inst₁) (h₂ : w₂.current = some inst₂) :
    ∃ new, w₂.store.history = new ++ w₁.store.history ∧
      (attempts new).Pairwise (fun a b => a.sequence < b.sequence) ∧
      ∀ r ∈ attempts new, inst₁.db.lastSequence < r.sequence ∧
        r.sequence ≤ inst₂.db.lastSequence := by
  obtain ⟨-, hlater⟩ := Held.later hbefore ho hsteps hw₁ hw₂ h₁ h₂
  obtain ⟨new, htracks⟩ := hlater.tracks
  exact ⟨new, htracks.history, htracks.rising, htracks.within⟩

/-- The hypotheses hold for the run above. -/
theorem interleaved_sequences_busyWorker : ∃ (inst₁ inst₂ : Instance) (new : List Label),
    busyWorld.current = some inst₂ ∧ busyWorld.store.history = new ∧
      (attempts new).Pairwise (fun a b => a.sequence < b.sequence) ∧
      ∀ r ∈ attempts new, inst₁.db.lastSequence < r.sequence ∧
        r.sequence ≤ inst₂.db.lastSequence := by
  obtain ⟨inst₁, h₁, -⟩ := World.running_of_state
    (w := World.empty.run (fileFormat byteShape) openedWorker) (by decide +kernel)
  obtain ⟨inst₂, h₂, -⟩ := World.running_of_state (w := busyWorld) (by decide +kernel)
  obtain ⟨new, hH, hrising⟩ := interleaved_sequences openedWorker_along openedWorker_within
    busyWorker_inside rfl rfl h₁ h₂
  have hbefore : (World.empty.run (fileFormat byteShape) openedWorker).store.history = [] := by
    decide +kernel
  rw [hbefore, List.append_nil] at hH
  exact ⟨inst₁, inst₂, new, h₂, hH, hrising⟩

/-- What a step of the open database returns to the caller, if the process lives. -/
def World.returned (F : StorageFormat) (w : World) (a : Action) (script : List Outcome) :
    Option Returned :=
  match w.current with
  | none => none
  | some inst =>
    match inst.step F a { store := w.store, script := script } with
    | (.ok (ret, _), _) => some ret
    | _ => none

theorem World.step_of_returned {F : StorageFormat} {w : World} {inst : Instance} {a : Action}
    {script : List Outcome} {ret : Returned} (hc : w.current = some inst)
    (h : w.returned F a script = some ret) :
    ∃ inst' fs, inst.step F a { store := w.store, script := script } = (.ok (ret, inst'), fs) ∧
      w.step F (.act a script) = w.settle fs.store inst' := by
  unfold World.returned at h
  unfold World.step
  rw [hc] at h ⊢
  dsimp only at h ⊢
  match hm : inst.step F a { store := w.store, script := script } with
  | (.ok (ret', inst'), fs) =>
    rw [hm] at h
    cases h
    exact ⟨inst', fs, rfl, rfl⟩
  | (.error e, fs) =>
    rw [hm] at h
    cases h
  | (.killed, fs) =>
    rw [hm] at h
    cases h

@[simp] theorem World.settle_store (w : World) (store : Store) (inst : Instance) :
    (w.settle store inst).store = store := by
  unfold World.settle
  split <;> rfl

theorem World.settle_current {w : World} {store : Store} {inst inst' : Instance}
    (h : (w.settle store inst).current = some inst') : inst = inst' := by
  unfold World.settle at h
  split at h
  · cases h
  · exact Option.some.inj h

/-- Each step of an open database puts at most one label into the history, that of the write that
the step carries. A write that returns OK has been appended in this very step; one whose append
failed is in doubt and has made the status sticky; no other step changes the history. -/
theorem step_commits {shape : BloomShape} {crashes : Bool} {o : FormatOptions}
    {before steps : List WorldEvent}
    (hbefore : World.empty.along (fileFormat shape) (disciplined crashes)
      before = true)
    (ho : ∀ e ∈ before, e.Within (· = o)) (hsteps : ∀ e ∈ steps, e.Inside) {w₁ w₂ w₃ : World}
    (hw₁ : w₁ = World.empty.run (fileFormat shape) before)
    (hw₂ : w₂ = w₁.run (fileFormat shape) steps) {inst₁ inst₂ : Instance}
    (h₁ : w₁.current = some inst₁) (h₂ : w₂.current = some inst₂) {a : Action}
    {script : List Outcome} {ret : Returned}
    (hret : w₂.returned (fileFormat shape) a script = some ret)
    (hw₃ : w₃ = w₂.step (fileFormat shape) (.act a script)) :
    (w₃.store.history = w₂.store.history ∧ (inst₂.carries a ≠ none → ret ≠ some (.ok ()))) ∨
    ∃ r mode, inst₂.carries a = some (r, mode) ∧
      ((w₃.store.history = .appended r mode :: w₂.store.history ∧ ret ≠ none) ∨
        (w₃.store.history = .inDoubt r :: w₂.store.history ∧ (∃ e, ret = some (.error e)) ∧
          ∀ inst₃, w₃.current = some inst₃ → inst₃.db.status.isOk = false)) := by
  obtain ⟨-, hlater⟩ := Held.later hbefore ho hsteps hw₁ hw₂ h₁ h₂
  obtain ⟨inst, fs, hstep, hsettle⟩ := World.step_of_returned h₂ hret
  rw [hsettle] at hw₃
  have hturn := Instance.Joint.step (q := False) (σ := sceneOf inst₂.db w₂.store)
    (fileFormat_lawful shape) (fileFormat_portable shape) trivial a
    (fun r mode _ => reading_takes inst₂.db _ r mode) { store := w₂.store, script := script }
    ⟨nofun, hlater.joint, rfl⟩
  rw [hstep] at hturn
  rw [hw₃, World.settle_store]
  cases hturn.2 with
  | on _ he =>
    cases he with
    | same data _ pending =>
      exact Or.inl ⟨congrArg Scene.history data, pending⟩
    | @wrote r mode carried data _ returned =>
      exact Or.inr ⟨r, mode, carried, Or.inl ⟨congrArg Scene.history data, returned⟩⟩
    | raised _ data _ failed =>
      obtain ⟨e, hfailed⟩ := failed
      refine Or.inl ⟨congrArg Scene.history data, fun _ hok => ?_⟩
      cases hok.symm.trans hfailed
    | @doubt r mode carried data status failed =>
      refine Or.inr ⟨r, mode, carried, Or.inr ⟨congrArg Scene.history data, failed, ?_⟩⟩
      intro inst₃ h₃
      rw [← World.settle_current h₃]
      exact status
  | closed _ steady _ _ silent =>
    exact Or.inl ⟨congrArg Scene.history steady.inv.scene, fun hcarries => absurd silent hcarries⟩

/-- The sync of the second write of the run above fails. -/
theorem step_commits_busyWorker : ∃ w₂ w₃ : World,
    w₂ = (World.empty.run (fileFormat byteShape) openedWorker).run (fileFormat byteShape)
      (busyWorker.take 3) ∧
    w₃ = w₂.step (fileFormat byteShape) (.act (.call (.put [2] [8] .sync)) [.ok, .fail 0]) ∧
    w₃.store.history = .inDoubt ⟨[2], 2, .value, [8]⟩ :: w₂.store.history ∧
    ∀ inst₃, w₃.current = some inst₃ → inst₃.db.status.isOk = false := by
  obtain ⟨inst₁, h₁, -⟩ := World.running_of_state
    (w := World.empty.run (fileFormat byteShape) openedWorker) (by decide +kernel)
  obtain ⟨inst₂, h₂, -⟩ := World.running_of_state
    (w := (World.empty.run (fileFormat byteShape) openedWorker).run (fileFormat byteShape)
      (busyWorker.take 3)) (by decide +kernel)
  have hinside : ∀ e ∈ busyWorker.take 3, e.Inside :=
    fun e he => busyWorker_inside e (List.mem_of_mem_take he)
  have hret : (World.run (fileFormat byteShape) (World.empty.run (fileFormat byteShape) openedWorker)
      (busyWorker.take 3)).returned (fileFormat byteShape) (.call (.put [2] [8] .sync))
      [.ok, .fail 0] = some (some (.error (.ioError "fdatasync"))) := by decide +kernel
  have hlabel : (World.step (fileFormat byteShape)
      (World.run (fileFormat byteShape) (World.empty.run (fileFormat byteShape) openedWorker)
        (busyWorker.take 3))
      (.act (.call (.put [2] [8] .sync)) [.ok, .fail 0])).store.history.head? =
        some (.inDoubt ⟨[2], 2, .value, [8]⟩) := by decide +kernel
  refine ⟨_, _, rfl, rfl, ?_⟩
  rcases step_commits openedWorker_along openedWorker_within hinside rfl rfl h₁ h₂ hret rfl with
    ⟨hsame, -⟩ | ⟨r, mode, hcarries, ⟨hH, -⟩ | ⟨hH, -, hstatus⟩⟩
  · exact absurd hsame (by decide +kernel)
  · rw [hH] at hlabel
    cases hlabel
  · rw [hH] at hlabel
    cases hlabel
    exact ⟨hH, hstatus⟩

end MiniKV
