import MiniKV.State.Logged

/-!
# The invariant of an open database

`Inv` collects what holds of a database and its store whenever the lock is free,
and at every point at which the process may die inside a section. What a section
of maintenance must not change is fixed in a `Scene`. `Remains` is what a
process leaves behind when it dies.
-/

namespace MiniKV

open Lib

/-! ## Traces -/

/-- A Version whose MANIFEST was renamed into place. -/
def ManifestIn (F : StorageFormat) (o : FormatOptions) (v : Version) (trace : List Event) : Prop :=
  ∃ b, .renamed .manifest b ∈ trace ∧ F.decodeManifest o b = .ok v

/-- A log, or a table that was live once. -/
def Accountable (F : StorageFormat) (o : FormatOptions) (trace : List Event) : FileName → Prop
  | .wal _ => True
  | .sst n => ∃ v, ManifestIn F o v trace ∧ ∃ t ∈ v.tables, t.generation = n
  | _ => False

/-- A MANIFEST that makes the file obsolete is durable. -/
def Dispensable (F : StorageFormat) (o : FormatOptions) (trace : List Event) (f : FileName) :
    Prop :=
  ∃ b v, SyncedManifest b trace ∧ F.decodeManifest o b = .ok v ∧ v.Obsolete f

/-- Every log, and every table that was live once, was removed when a durable MANIFEST had
made it obsolete. -/
def Justified (F : StorageFormat) (o : FormatOptions) : List Event → Prop
  | [] => True
  | .removed f :: old => (Accountable F o old f → Dispensable F o old f) ∧ Justified F o old
  | .renamed _ _ :: old => Justified F o old
  | .directorySynced :: old => Justified F o old

/-- No MANIFEST of the trace was ahead of the one in place. -/
def Topped (F : StorageFormat) (o : FormatOptions) (st : Store) : Prop :=
  ∀ u, ManifestIn F o u st.trace → ∃ w, ManifestIs F o (currentImage st) w ∧
    u.nextFileNumber ≤ w.nextFileNumber

section

variable {F : StorageFormat} {o : FormatOptions} {trace : List Event} {st st' : Store}

theorem ManifestIn.of_cons {v : Version} {e : Event} (h : ManifestIn F o v (e :: trace)) :
    (∃ b, e = .renamed .manifest b ∧ F.decodeManifest o b = .ok v) ∨ ManifestIn F o v trace := by
  obtain ⟨b, hb, hd⟩ := h
  rcases List.mem_cons.mp hb with he | hb
  · exact Or.inl ⟨b, he.symm, hd⟩
  · exact Or.inr ⟨b, hb, hd⟩

theorem Justified.removed_temporary {f : FileName} (h : Justified F o trace)
    (hf : f.isTemporary = true) : Justified F o (.removed f :: trace) := by
  refine ⟨fun hc => ?_, h⟩
  cases f with
  | manifestTmp => exact hc.elim
  | sstTmp n => exact hc.elim
  | other name hname => exact hc.elim
  | manifest => cases hf
  | sst n => cases hf
  | wal n => cases hf

/-- An event that renames no MANIFEST, with the same image. -/
theorem Topped.of_cons {e : Event} (h : Topped F o st) (ht : st'.trace = e :: st.trace)
    (he : ∀ b, e ≠ .renamed .manifest b) (hi : currentImage st' = currentImage st) :
    Topped F o st' := by
  intro u hu
  rw [ht] at hu
  rw [hi]
  rcases hu.of_cons with ⟨b, hb, -⟩ | hu
  · exact absurd hb (he b)
  · exact h u hu

theorem Topped.of_eq (h : Topped F o st) (ht : st'.trace = st.trace)
    (hi : currentImage st' = currentImage st) : Topped F o st' := by
  intro u hu
  rw [ht] at hu
  rw [hi]
  exact h u hu

theorem currentImage_untouched (h : Disk.Untouched FileName.Core st.disk st'.disk) :
    currentImage st' = currentImage st := by
  refine image_ext (fun f hf => ?_)
  have hc : Dir.lookup st'.disk.dir.current f = Dir.lookup st.disk.dir.current f := h.current f hf
  rw [hc]
  cases hl : Dir.lookup st.disk.dir.current f with
  | none => rfl
  | some i =>
    rw [Option.map_some, Option.map_some, h.files _ (Volatile.current_mem_states _) f i hf hl]

end

/-! ## Scenes -/

/-- The members that say how the database may be used. -/
structure Control where
  status : Status
  backgroundStatus : Status
  closeStatus : Status
  state : DatabaseState
  backgroundWorkRequested : Bool
  backgroundWorkRunning : Bool
  stopBackground : Bool

def Database.control (db : Database) : Control where
  status := db.status
  backgroundStatus := db.backgroundStatus
  closeStatus := db.closeStatus
  state := db.state
  backgroundWorkRequested := db.backgroundWorkRequested
  backgroundWorkRunning := db.backgroundWorkRunning
  stopBackground := db.stopBackground

/-- What maintenance leaves alone. -/
structure Scene where
  options : Options
  view : Bytes → Option Bytes
  lastSequence : Nat
  control : Control
  history : List Label

abbrev Scene.format (σ : Scene) : FormatOptions := σ.options.toFormatOptions

/-- The scene of a database and its store. -/
def sceneOf (db : Database) (st : Store) : Scene where
  options := db.options
  view := db.contents.view
  lastSequence := db.lastSequence
  control := db.control
  history := st.history

/-! ## The invariant -/

/-- A MANIFEST as this code writes it. -/
def ManifestSeparate (F : StorageFormat) (o : FormatOptions) (m : Image) : Prop :=
  ∀ v, m .manifest = some v → ∃ u b, v = .stable b ∧ F.encodeManifest o u = .ok b ∧
    u.Separate ∧ u.tables.Pairwise generationLe ∧ u.id ≤ maxUInt64

/-- The file of an open log has no other kind of name. -/
structure WalFile (i : Inode) (d : Disk) : Prop where
  lt : i < d.fresh
  named : ∀ δ ∈ d.dir.states, ∀ f, Dir.lookup δ f = some i → ∃ n, f = .wal n

/-- The length of the open log. -/
def walLength (w : Option WalWriter) (d : Disk) : Nat :=
  match w with
  | none => 0
  | some w => (d.files w.file).current.length

/-- A compaction waits for its publication. -/
def Contents.Waiting (x : Contents) : Prop :=
  ∃ c, x.compaction = some c ∧ c.versionPublished = false

/-- The Mutable is no larger than its log, apart from what it carried over when a
compaction took its log away. -/
def SizeInv (x : Contents) (w : Option WalWriter) (d : Disk) : Prop :=
  ∃ carry, carry ≤ maximumFileSize ∧ (x.Waiting → carry = 0) ∧
    x.mutableTable.approximateDataSize ≤ carry + walLength w d

/-- The trace is in order, and the Version in memory is durable. -/
structure Traced (F : StorageFormat) (o : FormatOptions) (v : Version) (st : Store) : Prop where
  justified : Justified F o st.trace
  current : ∃ b, F.encodeManifest o v = .ok b ∧ SyncedManifest b st.trace
  topped : Topped F o st

structure Inv (F : StorageFormat) (ρ : Regime) (σ : Scene) (db : Database) (st : Store) : Prop where
  scene : sceneOf db st = σ
  contents : ContentsInv ρ db.contents
  wf : st.disk.Wf
  manifests : ρ.ordered → Everywhere (ManifestSeparate F db.format) st
  size : ρ.ordered → SizeInv db.contents db.wal st.disk
  wal : ∀ w, db.wal = some w → WalFile w.file st.disk
  linked : ρ.durable → ∀ w, db.wal = some w → ∀ δ ∈ st.disk.dir.states,
    Dir.lookup δ (.wal db.mutableGeneration) = some w.file
  stored : ρ.durable → Everywhere (StoredIn F ρ db.contents db.wal st.history) st
  traced : ρ.traced → Traced F db.format db.version st

/-- What a process leaves behind. -/
structure Remains (F : StorageFormat) (o : FormatOptions) (ρ : Regime) (st : Store) : Prop where
  wf : st.disk.Wf
  manifests : ρ.ordered → Everywhere (ManifestSeparate F o) st
  durable : ρ.durable → Durable F o ρ.toUsage st
  traced : ρ.traced → Justified F o st.trace ∧ Topped F o st

section

variable {F : StorageFormat} {ρ : Regime} {σ : Scene} {db : Database} {st st' : Store}

theorem Inv.format_eq (h : Inv F ρ σ db st) : db.format = σ.format := by
  rw [← h.scene]
  rfl

theorem Inv.remains (h : Inv F ρ σ db st) : Remains F σ.format ρ st := by
  rw [← h.format_eq]
  refine ⟨h.wf, h.manifests, fun hd => ⟨h.wf, ?_⟩,
    fun ht => ⟨(h.traced ht).justified, (h.traced ht).topped⟩⟩
  obtain ⟨hord, hpl⟩ := ρ.durable_imp hd
  refine (h.stored hd).mono (fun m hm => ?_)
  obtain ⟨T, I, D, M, X, hs⟩ := hm
  exact hs.recoverable h.contents hord hpl

theorem Inv.next_le (h : Inv F ρ σ db st) (hord : ρ.ordered) :
    db.version.nextFileNumber ≤ db.mutableGeneration := (h.contents.order hord).next_le

/-! ## Work on temporary names -/

theorem WalFile.untouched {N : FileName → Prop} {i : Inode} {d d' : Disk} (h : WalFile i d)
    (hu : Disk.Untouched N d d') : WalFile i d' := by
  refine ⟨h.lt.trans_le hu.fresh, fun δ hδ f hf => ?_⟩
  rcases hu.links δ hδ f i hf with hlt | ⟨ε, hε, hf'⟩
  · exact absurd h.lt (not_lt.mpr hlt)
  · exact h.named ε hε f hf'

theorem SizeInv.mono {x : Contents} {w : Option WalWriter} {d d' : Disk} (h : SizeInv x w d)
    (hlen : walLength w d ≤ walLength w d') : SizeInv x w d' := by
  obtain ⟨carry, h1, h2, h3⟩ := h
  exact ⟨carry, h1, h2, by omega⟩

theorem walLength_untouched {N : FileName → Prop} {w : Option WalWriter} {d d' : Disk}
    (hw : ∀ w', w = some w' → WalFile w'.file d) (hu : Disk.Untouched N d d') :
    walLength w d ≤ walLength w d' := by
  cases w with
  | none => exact le_refl _
  | some w' => exact hu.length _ (hw w' rfl).lt

/-- The invariant after a change of the store that keeps the scene, the log and the images. -/
theorem Inv.step (h : Inv F ρ σ db st) (hwf : st'.disk.Wf) (hhist : st'.history = st.history)
    (hman : ρ.ordered → Everywhere (ManifestSeparate F db.format) st')
    (hlen : walLength db.wal st.disk ≤ walLength db.wal st'.disk)
    (hwal : ∀ w, db.wal = some w → WalFile w.file st'.disk)
    (hlink : ρ.durable → ∀ w, db.wal = some w → ∀ δ ∈ st'.disk.dir.states,
      Dir.lookup δ (.wal db.mutableGeneration) = some w.file)
    (hstored : ρ.durable → Everywhere (StoredIn F ρ db.contents db.wal st.history) st')
    (htrace : ρ.traced → Traced F db.format db.version st') : Inv F ρ σ db st' := by
  refine ⟨?_, h.contents, hwf, hman, fun hord => (h.size hord).mono hlen, hwal, hlink, ?_, htrace⟩
  · rw [← h.scene, sceneOf, sceneOf, hhist]
  · rw [hhist]
    exact hstored

theorem Inv.framed (h : Inv F ρ σ db st) (hs : Framed FileName.Core st st') :
    Inv F ρ σ db st' := by
  refine h.step hs.wf hs.history (fun hord => (h.manifests hord).framed hs.disk)
    (walLength_untouched h.wal hs.disk) (fun w hw => (h.wal w hw).untouched hs.disk) ?_
    (fun hd => (h.stored hd).framed hs.disk) ?_
  · intro hd w hw δ hδ
    obtain ⟨ε, hε, hsame⟩ := hs.disk.states δ hδ
    rw [hsame _ rfl]
    exact h.linked hd w hw ε hε
  · intro ht
    obtain ⟨hj, ⟨b, hb, hsync⟩, htop⟩ := h.traced ht
    have hi := currentImage_untouched hs.disk
    rcases hs.trace with he | ⟨f, hf, he⟩
    · exact ⟨he ▸ hj, ⟨b, hb, he ▸ hsync⟩, htop.of_eq he hi⟩
    · refine ⟨he ▸ hj.removed_temporary hf, ⟨b, hb, he ▸ hsync.cons _⟩, htop.of_cons he ?_ hi⟩
      intro b hb
      cases hb

theorem WalFile.sync {i : Inode} {d : Disk} (h : WalFile i d) : WalFile i d.syncDirectory := by
  refine ⟨h.lt, fun δ hδ f hf => ?_⟩
  rw [List.mem_singleton.mp hδ] at hf
  exact h.named _ (Volatile.current_mem_states _) f hf

theorem Inv.sync (h : Inv F ρ σ db st) : Inv F ρ σ db (st.onDisk Disk.syncDirectory) := by
  refine h.step h.wf.syncDirectory rfl (fun hord => (h.manifests hord).sync) (le_refl _)
    (fun w hw => (h.wal w hw).sync) ?_ (fun hd => (h.stored hd).sync)
    (fun ht => ⟨(h.traced ht).justified, (h.traced ht).current, (h.traced ht).topped⟩)
  intro hd w hw δ hδ
  rw [List.mem_singleton.mp hδ]
  exact h.linked hd w hw _ (Volatile.current_mem_states _)

theorem Inv.synced (h : Inv F ρ σ db st) :
    Inv F ρ σ db ((st.onDisk Disk.syncDirectory).note .directorySynced) := by
  have hs := h.sync
  refine hs.step hs.wf rfl hs.manifests (le_refl _) hs.wal hs.linked hs.stored (fun ht => ?_)
  obtain ⟨hj, ⟨b, hb, hsync⟩, htop⟩ := hs.traced ht
  refine ⟨hj, ⟨b, hb, hsync.cons _⟩, htop.of_cons rfl ?_ rfl⟩
  intro b hb
  cases hb

theorem Inv.stable : Stable FileName.Core (Inv F ρ σ db) where
  core := fun _ h => h
  wf := fun _ h => h.wf
  frame := fun _ _ h hs => h.framed hs
  sync := fun _ h => h.sync
  synced := fun _ h => h.synced

end

end MiniKV
