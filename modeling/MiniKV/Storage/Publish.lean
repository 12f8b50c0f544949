import MiniKV.Storage.Spec
import MiniKV.Compaction.Effect

/-!
# Publishing a file

A file is written under a temporary name, synced, renamed and made durable by a
directory sync. The specifications below are about any invariant that is stable
under work on temporary names and under directory syncs, and that survives the
rename: such an invariant holds at every point of a publication.
-/

namespace MiniKV

open Lib

/-- A change of the store that leaves everything under the names as it was. -/
structure Framed (N : FileName → Prop) (st st' : Store) : Prop where
  disk : Disk.Untouched N st.disk st'.disk
  wf : st'.disk.Wf
  history : st'.history = st.history
  trace : st'.trace = st.trace ∨
    ∃ f, f.isTemporary = true ∧ st'.trace = .removed f :: st.trace

/-- An invariant that work on other names and directory syncs do not disturb. -/
structure Stable (N : FileName → Prop) (P : Store → Prop) : Prop where
  core : ∀ f : FileName, f.Core → N f
  wf : ∀ st, P st → st.disk.Wf
  frame : ∀ st st', P st → Framed N st st' → P st'
  sync : ∀ st, P st → P (st.onDisk Disk.syncDirectory)
  synced : ∀ st, P st → P ((st.onDisk Disk.syncDirectory).note .directorySynced)

/-- A file under a temporary name that no other name refers to. -/
structure Temporary (f : FileName) (i : Inode) (v : Volatile Bytes) (st : Store) : Prop where
  lookup : st.disk.lookup f = some i
  files : st.disk.files i = v
  owned : Disk.Owned st.disk f i

/-- A file with stable contents under its final name. -/
structure Linked (f : FileName) (b : Bytes) (st : Store) : Prop where
  lookup : ∃ i, st.disk.lookup f = some i ∧ st.disk.files i = .stable b

/-- The same in every directory state that a crash may leave. -/
structure Pinned (f : FileName) (b : Bytes) (st : Store) : Prop where
  states : ∃ i, (∀ δ ∈ st.disk.dir.states, Dir.lookup δ f = some i) ∧
    st.disk.files i = .stable b

theorem Pinned.linked {f : FileName} {b : Bytes} {st : Store} (h : Pinned f b st) :
    Linked f b st := by
  obtain ⟨i, hs, hf⟩ := h.states
  exact ⟨i, hs _ (Volatile.current_mem_states _), hf⟩

theorem Linked.pinned_sync {f : FileName} {b : Bytes} {st : Store} (h : Linked f b st) :
    Pinned f b (st.onDisk Disk.syncDirectory) := by
  obtain ⟨i, hl, hf⟩ := h.lookup
  refine ⟨i, fun δ hδ => ?_, hf⟩
  rw [List.mem_singleton.mp hδ]
  exact hl

section

variable {q : Prop} {N : FileName → Prop} {P : Store → Prop} {E : Status → Store → Prop}

theorem createTruncated_spec (hP : Stable N P) {f : FileName} (hf : ¬ N f) {R : Store → Prop} :
    Spec q P R (createTruncated f) (fun i st => Temporary f i (.stable []) st)
      (fun e _ => Fault q e) := by
  refine Spec.get_bind (fun s hp _ => ?_)
  have hframe : ∀ st, P st → Framed N st (st.onDisk (·.create f)) := fun st hst =>
    ⟨Disk.Untouched.create (hP.wf st hst) hf, (hP.wf st hst).create f, rfl, Or.inl rfl⟩
  refine Spec.bind (S := fun _ st => Temporary f s.store.disk.fresh (.stable []) st) ?_
    (fun _ => Spec.pure (fun _ _ h => h))
  refine Spec.atomically (fun st hst _ => hP.frame st _ hst (hframe st hst)) ?_
    (fun hq _ _ _ => ⟨⟨hq, rfl⟩, ⟨hq, rfl⟩⟩)
  rintro st hst ⟨rfl, -⟩
  exact ⟨Disk.lookup_create_self _ _, Disk.files_create_fresh _ _,
    Disk.Owned.create (hP.wf _ hst) f⟩

/-- Growing a private file keeps the invariant. -/
private theorem setFile_framed (hP : Stable N P) {st : Store} (hst : P st) {i : Inode}
    (hi : Disk.Private N st.disk i) {v : Volatile Bytes}
    (hv : (st.disk.files i).current.length ≤ v.current.length)
    (hs : ∀ c ∈ v.states, c.length ≤ maximumFileSize) :
    P (st.onDisk (·.setFile i v)) :=
  hP.frame st _ hst ⟨Disk.Untouched.setFile hi hv, (hP.wf st hst).setFile hs, rfl, Or.inl rfl⟩

theorem fitting_length (d : Disk) (i : Inode) (data : Bytes)
    (hd : (d.files i).current.length ≤ maximumFileSize) :
    (d.files i).current.length + (fitting d i data).length ≤ maximumFileSize := by
  unfold fitting
  rw [List.length_take]
  omega

/-- Why a write of fresh data may fail when the environment does not. -/
def TooLong (b : Bytes) (e : Status) : Prop := maximumFileSize < b.length ∧ e = .ioError "write"

theorem writeAll_spec (hP : Stable N P) {f : FileName} (hf : ¬ N f) {i : Inode} {b : Bytes} :
    Spec q P (Temporary f i (.stable [])) (writeAll i b)
      (fun _ st => ∃ v, v.current = b ∧ Temporary f i v st)
      (fun e _ => Fault q e ∨ TooLong b e) := by
  rintro s ⟨hq, hp, ht⟩
  obtain ⟨hq', hst, hall⟩ := hq.next
  have hp' : P s.next.2.store := hst.symm ▸ hp
  have ht' : Temporary f i (.stable []) s.next.2.store := hst.symm ▸ ht
  -- whatever part of the data is written, the invariant is kept
  have hkeep : ∀ (t : Store) (p : Bytes), P t → Temporary f i (.stable []) t →
      p.length ≤ maximumFileSize → P (t.onDisk (·.append i p)) := by
    intro t p hpt htt hlen
    refine setFile_framed hP hpt (htt.owned.private hf) ?_ (fun c hc => ?_)
    · rw [Volatile.append_current, List.length_append]
      omega
    · rcases Volatile.mem_states_append.mp hc with hc | ⟨r, -, hr, rfl⟩
      · exact (hP.wf t hpt).small i c hc
      · have := hr.length_le
        rw [htt.files]
        simp only [Volatile.stable_current, List.nil_append]
        omega
  have hfit : ∀ t : Store, Temporary f i (.stable []) t →
      fitting t.disk i b = b.take maximumFileSize := by
    intro t htt
    unfold fitting
    rw [htt.files]
    rfl
  have hfitlen : ∀ t : Store, Temporary f i (.stable []) t →
      (fitting t.disk i b).length ≤ maximumFileSize := by
    intro t htt
    rw [hfit t htt, List.length_take]
    omega
  unfold MiniKV.writeAll
  match hn : s.next with
  | (.ok, t) =>
    rw [hn] at hq' hp' ht'
    dsimp only at hq' hp' ht' ⊢
    have hpost := hkeep t.store _ hp' ht' (hfitlen t.store ht')
    by_cases hlen : (fitting t.store.disk i b).length = b.length
    · rw [if_pos hlen]
      have hb : fitting t.store.disk i b = b := by
        rw [hfit _ ht', List.length_take] at hlen
        rw [hfit _ ht', List.take_of_length_le (by omega)]
      refine ⟨hq'.update _, hpost, (Volatile.stable []).append b, ?_, ?_⟩
      · rw [Volatile.append_current]
        rfl
      · refine ⟨ht'.lookup, ?_, ht'.owned.setFile _ _⟩
        show (t.store.disk.append i _).files i = _
        rw [Disk.append_eq, Disk.setFile_files_self, ht'.files, hb]
    · rw [if_neg hlen]
      refine ⟨hq'.update _, hpost, Or.inr ⟨?_, rfl⟩⟩
      rw [hfit _ ht', List.length_take] at hlen
      omega
  | (.fail n, t) =>
    rw [hn] at hq' hp' ht' hall
    dsimp only at hq' hp' ht' hall ⊢
    refine ⟨hq'.update _, hkeep t.store _ hp' ht' ?_, Or.inl ⟨fun h => (by cases hall h), rfl⟩⟩
    have := hfitlen t.store ht'
    rw [List.length_take]
    omega
  | (.kill n, t) =>
    rw [hn] at hp' ht' hall
    dsimp only at hp' ht' hall ⊢
    refine ⟨fun h => (by cases hall h), hkeep t.store _ hp' ht' ?_⟩
    have := hfitlen t.store ht'
    rw [List.length_take]
    omega

theorem syncFile_spec (hP : Stable N P) {f : FileName} (hf : ¬ N f) {i : Inode} {b : Bytes} :
    Spec q P (fun st => ∃ v, v.current = b ∧ Temporary f i v st) (syncFile i)
      (fun _ st => Temporary f i (.stable b) st) (fun e _ => Fault q e) := by
  refine Spec.atomically ?_ ?_ (fun hq _ _ _ => ⟨⟨hq, rfl⟩, ⟨hq, rfl⟩⟩)
  · rintro st hst ⟨v, hv, ht⟩
    refine setFile_framed hP hst (ht.owned.private hf) (le_refl _) (fun c hc => ?_)
    rw [List.mem_singleton.mp hc]
    exact (hP.wf st hst).small i _ (Volatile.current_mem_states _)
  · rintro st - ⟨v, hv, ht⟩
    refine ⟨ht.lookup, ?_, ht.owned.setFile _ _⟩
    show (st.disk.sync i).files i = _
    rw [Disk.sync_eq, Disk.setFile_files_self, ht.files, Volatile.flush, hv]

theorem removeFile_spec (hP : Stable N P) {f : FileName} (hf : ¬ N f)
    (ht : f.isTemporary = true) {R : Store → Prop} :
    Spec q P R (removeFile f) (fun _ _ => True) (fun e _ => Fault q e) := by
  refine Spec.get_bind (fun s _ _ => ?_)
  cases s.store.disk.lookup f with
  | none => exact Spec.atomically (fun _ h _ => h) (fun _ _ _ => trivial) (fun hq _ _ _ => ⟨⟨hq, rfl⟩, ⟨hq, rfl⟩⟩)
  | some i =>
    refine Spec.atomically (fun st hst _ => ?_) (fun _ _ _ => trivial)
      (fun hq _ _ _ => ⟨⟨hq, rfl⟩, ⟨hq, rfl⟩⟩)
    exact hP.frame st _ hst ⟨Disk.Untouched.remove hf, (hP.wf st hst).remove f, rfl,
      Or.inr ⟨f, ht, rfl⟩⟩

theorem bestEffortRemove_spec (hP : Stable N P) {files : List FileName}
    (hf : ∀ f ∈ files, ¬ N f ∧ f.isTemporary = true) {R : Store → Prop} :
    Spec q P R (bestEffortRemove files) (fun _ _ => True) E := by
  induction files generalizing R with
  | nil => exact Spec.pure (fun _ _ _ => trivial)
  | cons f fs ih =>
    obtain ⟨hN, ht⟩ := hf f List.mem_cons_self
    refine Spec.bind (S := fun _ _ => True) ?_ (fun _ =>
      ih (fun g hg => hf g (List.mem_cons_of_mem _ hg)))
    exact Spec.attempt (Spec.conseq (removeFile_spec hP hN ht) (fun _ _ h => h)
      (fun _ _ _ _ => trivial) (fun _ _ _ _ => trivial))

theorem abandon_spec (hP : Stable N P) {files : List FileName}
    (hf : ∀ f ∈ files, ¬ N f ∧ f.isTemporary = true) {e : Status} {R : Store → Prop}
    {Q : Unit → Store → Prop} {C : Status → Prop} (hR : ∀ st, P st → R st → C e) :
    Spec q P R (abandon files e) Q (fun e _ => C e) := by
  refine fun s ⟨hq, hp, hr⟩ => ?_
  have h : Spec q P (fun _ => True) (abandon files e) Q (fun e _ => C e) :=
    Spec.bind (S := fun _ _ => True) (bestEffortRemove_spec hP hf)
      (fun _ => Spec.fail (fun _ _ _ => hR _ hp hr))
  exact h s ⟨hq, hp, trivial⟩

/-- Running a call, and giving up on temporary files where it fails. -/
theorem orAbandon_spec (hP : Stable N P) {files : List FileName}
    (hf : ∀ f ∈ files, ¬ N f ∧ f.isTemporary = true) {call : Io Unit} {R : Store → Prop}
    {Q : Unit → Store → Prop} {C : Status → Prop} (h : Spec q P R call Q (fun e _ => C e)) :
    Spec q P R (orAbandon files call) Q (fun e _ => C e) := by
  refine Spec.attempt_bind h (fun _ => ?_) (fun e => ?_)
  · exact Spec.pure (fun _ _ hr => hr)
  · exact abandon_spec hP hf (fun _ _ hc => hc)

/-! ## The last calls of a publication -/

/-- The store after a rename. -/
def renamed (src dst : FileName) (b : Bytes) (st : Store) : Store :=
  (st.onDisk (·.rename src dst)).note (.renamed dst b)

theorem renameFile_spec {src dst : FileName} {b : Bytes} {R : Store → Prop}
    {Q : Unit → Store → Prop}
    (hsrc : ∀ st, P st → R st → ∃ i, st.disk.lookup src = some i ∧ st.disk.files i = .stable b)
    (hP : ∀ st, P st → R st → P (renamed src dst b st))
    (hQ : ∀ st, P st → R st → Q () (renamed src dst b st)) :
    Spec q P R (renameFile src dst) Q (fun e _ => Fault q e) := by
  refine Spec.get_bind (fun s hp hr => ?_)
  obtain ⟨i, hl, hf⟩ := hsrc s.store hp hr
  simp only [hl, hf, Volatile.stable_current]
  refine Spec.atomically ?_ ?_ (fun hq _ _ _ => ⟨⟨hq, rfl⟩, ⟨hq, rfl⟩⟩)
  · rintro st hst ⟨-, hr'⟩
    exact hP st hst hr'
  · rintro st hst ⟨-, hr'⟩
    exact hQ st hst hr'

theorem syncDirectory_spec (hP : Stable N P) {R : Store → Prop} {Q : Unit → Store → Prop}
    (hQ : ∀ st, P st → R st → Q () ((st.onDisk Disk.syncDirectory).note .directorySynced)) :
    Spec q P R syncDirectory Q (fun e _ => Fault q e) := by
  rintro s ⟨hq, hp, hr⟩
  obtain ⟨hq', hst, hall⟩ := hq.next
  have hp' : P s.next.2.store := hst.symm ▸ hp
  have hr' : R s.next.2.store := hst.symm ▸ hr
  unfold MiniKV.syncDirectory
  match hn : s.next with
  | (.ok, t) =>
    rw [hn] at hq' hp' hr'
    exact ⟨hq'.update _, hP.synced _ hp', hQ _ hp' hr'⟩
  | (.fail n, t) =>
    rw [hn] at hq' hp' hall
    have hnq : ¬ q := fun h => by cases hall h
    dsimp only
    split
    · exact ⟨hq', hp', hnq, rfl⟩
    · exact ⟨hq'.update _, hP.sync _ hp', hnq, rfl⟩
  | (.kill n, t) =>
    rw [hn] at hp' hall
    have hnq : ¬ q := fun h => by cases hall h
    dsimp only
    split
    · exact ⟨hnq, hp'⟩
    · exact ⟨hnq, hP.sync _ hp'⟩

theorem readFile_spec {f : FileName} {b : Bytes} {R : Store → Prop}
    (hR : ∀ st, P st → R st → Linked f b st) :
    Spec q P R (readFile f) (fun c st => c = b ∧ R st) (fun e _ => Fault q e) := by
  refine Spec.get_bind (fun s hp hr => ?_)
  obtain ⟨i, hl, hf⟩ := (hR s.store hp hr).lookup
  simp only [hl, hf, Volatile.stable_current]
  refine Spec.bind (S := fun _ => R) ?_ (fun _ => Spec.pure (fun _ _ h => ⟨rfl, h⟩))
  refine Spec.atomically (fun _ h _ => h) ?_ (fun hq _ _ _ => ⟨⟨hq, rfl⟩, ⟨hq, rfl⟩⟩)
  rintro st - ⟨-, h⟩
  exact h

theorem Linked.of_renamed {src dst : FileName} {b : Bytes} {st : Store} {i : Inode}
    (hl : st.disk.lookup src = some i) (hf : st.disk.files i = .stable b) :
    Linked dst b (renamed src dst b st) := by
  refine ⟨i, ?_, hf⟩
  show Dir.lookup (st.disk.dir.current.move src dst) dst = some i
  rw [Dir.lookup_move hl, if_pos rfl]

theorem Linked.pinned_synced {f : FileName} {b : Bytes} {st : Store} (h : Linked f b st) :
    Pinned f b ((st.onDisk Disk.syncDirectory).note .directorySynced) :=
  ⟨h.pinned_sync.states⟩

/-! ## The MANIFEST -/

/-- A MANIFEST was renamed into place, and a directory sync followed. -/
def SyncedManifest (b : Bytes) (trace : List Event) : Prop :=
  ∃ new old, trace = new ++ old ∧ .directorySynced ∈ new ∧ .renamed .manifest b ∈ old

theorem SyncedManifest.of_synced {b : Bytes} {trace : List Event}
    (h : .renamed .manifest b ∈ trace) : SyncedManifest b (.directorySynced :: trace) :=
  ⟨[.directorySynced], trace, rfl, List.mem_singleton.mpr rfl, h⟩

theorem SyncedManifest.cons {b : Bytes} {trace : List Event} (h : SyncedManifest b trace)
    (e : Event) : SyncedManifest b (e :: trace) := by
  obtain ⟨new, old, rfl, hs, hr⟩ := h
  exact ⟨e :: new, old, rfl, List.mem_cons_of_mem _ hs, hr⟩

section

variable {F : StorageFormat} {o : FormatOptions} {version : Version}

theorem publishManifest_spec (hF : F.Lawful) (hP : Stable N P) (hN : ¬ N .manifestTmp)
    (hren : ∀ st i b, F.encodeManifest o version = .ok b → P st →
      Temporary .manifestTmp i (.stable b) st → P (renamed .manifestTmp .manifest b st))
    {R : Store → Prop} :
    Spec q P R (publishManifest F o version)
      (fun _ st => ∃ b, F.encodeManifest o version = .ok b ∧ Pinned .manifest b st ∧
        SyncedManifest b st.trace)
      (fun e _ => Fault q e ∨ F.encodeManifest o version = .error e) := by
  have htmp : ∀ f ∈ [FileName.manifestTmp], ¬ N f ∧ f.isTemporary = true := by
    intro f hf
    rw [List.mem_singleton.mp hf]
    exact ⟨hN, rfl⟩
  have hquiet : ∀ {R : Store → Prop} {Q : Unit → Store → Prop} {m : Io Unit},
      Spec q P R m Q (fun e _ => Fault q e) →
        Spec q P R m Q (fun e _ => Fault q e ∨ F.encodeManifest o version = .error e) :=
    fun h => Spec.conseq h (fun _ _ h => h) (fun _ _ _ h => h) (fun _ _ _ h => Or.inl h)
  refine Spec.bind (S := fun b _ => F.encodeManifest o version = .ok b)
    (Spec.ofExcept (fun b hb _ _ _ => hb) (fun e he _ _ _ => Or.inr he)) (fun b => ?_)
  refine Spec.bind (S := fun i st => F.encodeManifest o version = .ok b ∧
    Temporary .manifestTmp i (.stable []) st) ?_ (fun i => Spec.assume (fun hb => ?_))
  · refine fun s ⟨hq, hp, hb⟩ => ?_
    exact Prog.Triple.conseq (createTruncated_spec (R := fun _ => True) hP hN) (fun _ h => h)
      (fun _ _ ⟨h1, h2, h3⟩ => ⟨h1, h2, hb, h3⟩) (fun _ _ ⟨h1, h2, h3⟩ => ⟨h1, h2, Or.inl h3⟩)
      (fun _ h => h) s ⟨hq, hp, trivial⟩
  have hlen : b.length ≤ maximumFileSize := by
    have := hF.encodeManifest_length hb
    simp only [kMaximumManifestSize, maximumFileSize] at this ⊢
    omega
  refine Spec.bind (S := fun _ st => ∃ v, v.current = b ∧ Temporary .manifestTmp i v st)
    (hquiet (orAbandon_spec hP htmp (C := Fault q) ?_)) (fun _ => ?_)
  · refine Spec.conseq (writeAll_spec hP hN) (fun _ _ h => h) (fun _ _ _ h => h) ?_
    rintro e _ _ (h | ⟨h, -⟩)
    · exact h
    · omega
  refine Spec.bind (S := fun _ st => Temporary .manifestTmp i (.stable b) st)
    (hquiet (orAbandon_spec hP htmp (C := Fault q) (syncFile_spec hP hN))) (fun _ => ?_)
  refine Spec.bind (S := fun _ st => Linked .manifest b st ∧ .renamed .manifest b ∈ st.trace)
    (hquiet (orAbandon_spec hP htmp (C := Fault q) ?_)) (fun _ => ?_)
  · exact renameFile_spec (fun st _ ht => ⟨i, ht.lookup, ht.files⟩)
      (fun st hst ht => hren st i b hb hst ht)
      (fun st _ ht => ⟨Linked.of_renamed ht.lookup ht.files, List.mem_cons_self⟩)
  · exact hquiet (syncDirectory_spec hP
      (fun st _ hl => ⟨b, hb, hl.1.pinned_synced, .of_synced hl.2⟩))

end

/-! ## Tables -/

/-- The reader of a table that was written from a MemTable. -/
def tableReader (g : Nat) (m : MemTable) (b : Bytes) : SSTableReader where
  path := .sst g
  metadata := tableSummary g b.length m.records
  records := m.records

section

variable (F : StorageFormat) (o : FormatOptions) (g : Nat) (m : MemTable)

/-- The bytes a MemTable is written as. -/
structure Encodes (b : Bytes) : Prop where
  encode : F.encodeTable o g m.records = .ok b
  fits : b.length ≤ maximumFileSize

/-- Why a table cannot be written when the environment does not fail. -/
def TableRefused (e : Status) : Prop :=
  F.encodeTable o g m.records = .error e ∨
    ∃ b, F.encodeTable o g m.records = .ok b ∧ TooLong b e

/-- What holds between two calls of `PublishTable`. -/
def StageInv (q : Prop) : PublishStage → Store → Prop
  | .start, _ => True
  | .write i b, st =>
    F.encodeTable o g m.records = .ok b ∧ Temporary (.sstTmp g) i (.stable []) st
  | .sync i, st =>
    ∃ b, Encodes F o g m b ∧ ∃ v, v.current = b ∧ Temporary (.sstTmp g) i v st
  | .rename, st => ∃ b, Encodes F o g m b ∧ ∃ i, Temporary (.sstTmp g) i (.stable b) st
  | .syncDirectory, st => ∃ b, Encodes F o g m b ∧ Linked (.sst g) b st
  | .openReader, st => ∃ b, Encodes F o g m b ∧ Pinned (.sst g) b st
  | .cleanup e, _ => Fault q e ∨ TableRefused F o g m e
  | .done (.ok t), st =>
    ∃ b, Encodes F o g m b ∧ Pinned (.sst g) b st ∧ t = tableReader g m b
  | .done (.error e), _ => Fault q e ∨ TableRefused F o g m e

end

/-- How many calls are left at most. -/
@[simp] def PublishStage.remaining : PublishStage → Nat
  | .start => 6
  | .write _ _ => 5
  | .sync _ => 4
  | .rename => 3
  | .syncDirectory => 2
  | .openReader => 1
  | .cleanup _ => 1
  | .done _ => 0

section

variable {F : StorageFormat} {o : FormatOptions} {g : Nat} {m : MemTable}

theorem openReader_spec {f : FileName} {b : Bytes} {md : TableMetadata} {rs : List Record}
    {R : Store → Prop} (hR : ∀ st, P st → R st → Linked f b st)
    (hb : F.openTable o b = .ok (md, rs)) :
    Spec q P R (openReader F o f) (fun t st => t = ⟨f, md, rs⟩ ∧ R st) (fun e _ => Fault q e) := by
  refine Spec.bind (readFile_spec hR) (fun c => ?_)
  refine Spec.assume (fun hc => ?_)
  subst hc
  refine Spec.bind (S := fun p st => p = (md, rs) ∧ R st) ?_ (fun p => Spec.assume (fun hp => ?_))
  · rw [hb]
    exact Spec.pure (fun _ _ h => ⟨rfl, h⟩)
  · subst hp
    exact Spec.pure (fun _ _ h => ⟨rfl, h⟩)

theorem Encodes.openTable (hF : F.Lawful) {b : Bytes} (h : Encodes F o g m b) :
    F.openTable o b = .ok (tableSummary g b.length m.records, m.records) :=
  hF.openTable_encodeTable m.ascending h.encode

theorem tableReader_coherent (hF : F.Lawful) {b : Bytes} (h : Encodes F o g m b) :
    (tableReader g m b).Coherent o := by
  have ho := h.openTable hF
  refine ⟨rfl, hF.openTable_ascending ho, hF.openTable_ne_nil ho, hF.openTable_valid ho, rfl,
    hF.openTable_size ho, ?_⟩
  have := h.fits
  simp only [tableReader, tableSummary, maximumFileSize, maxUInt64] at this ⊢
  omega

/-- Every call of `PublishTable` keeps the invariant and comes closer to the end. -/
theorem publishStep_spec (hF : F.Lawful) (hP : Stable N P) (hN : ¬ N (.sstTmp g))
    (hg : g ≠ 0) (hm : m.entries ≠ [])
    (hren : ∀ st i b, Encodes F o g m b → P st → Temporary (.sstTmp g) i (.stable b) st →
      P (renamed (.sstTmp g) (.sst g) b st)) (stage : PublishStage) :
    Spec q P (StageInv F o g m q stage) (publishStep F o g m stage)
      (fun stage' st => StageInv F o g m q stage' st ∧
        (stage'.remaining < stage.remaining ∨ stage.remaining = 0)) (fun _ _ => False) := by
  cases stage with
  | start =>
    have hne : ¬ (g = 0 ∨ m.isEmpty = true) := by
      rintro (h | h)
      · exact hg h
      · exact hm (MemTable.isEmpty_iff.mp h)
    rw [publishStep, if_neg hne]
    cases hb : F.encodeTable o g m.records with
    | error e => exact Spec.pure (fun _ _ _ => ⟨Or.inr (Or.inl hb), Or.inl (by simp)⟩)
    | ok b =>
      refine Spec.attempt_bind (createTruncated_spec hP hN) (fun i => ?_) (fun e => ?_)
      · exact Spec.pure (fun _ _ h => ⟨⟨hb, h⟩, Or.inl (by simp)⟩)
      · exact Spec.pure (fun _ _ h => ⟨Or.inl h, Or.inl (by simp)⟩)
  | write i b =>
    refine Spec.assume (fun hb => ?_)
    refine Spec.attempt_bind (writeAll_spec hP hN) (fun _ => ?_) (fun e => ?_)
    · refine Spec.pure (fun st hst h => ⟨?_, Or.inl (by simp)⟩)
      obtain ⟨v, hv, ht⟩ := h
      refine ⟨b, ⟨hb, ?_⟩, v, hv, ht⟩
      have hs := (hP.wf st hst).small i v.current (by
        rw [ht.files]; exact Volatile.current_mem_states _)
      rwa [hv] at hs
    · refine Spec.pure (fun _ _ h => ⟨?_, Or.inl (by simp)⟩)
      rcases h with h | h
      · exact Or.inl h
      · exact Or.inr (Or.inr ⟨b, hb, h⟩)
  | sync i =>
    refine Spec.exists (fun b => Spec.assume (fun he => ?_))
    refine Spec.attempt_bind (syncFile_spec hP hN) (fun _ => ?_) (fun e => ?_)
    · exact Spec.pure (fun _ _ h => ⟨⟨b, he, i, h⟩, Or.inl (by simp)⟩)
    · exact Spec.pure (fun _ _ h => ⟨Or.inl h, Or.inl (by simp)⟩)
  | rename =>
    refine Spec.exists (fun b => Spec.assume (fun he => Spec.exists (fun i => ?_)))
    refine Spec.attempt_bind (S := fun _ => Linked (.sst g) b)
      (renameFile_spec (fun st _ ht => ⟨i, ht.lookup, ht.files⟩)
        (fun st hst ht => hren st i b he hst ht)
        (fun st _ ht => Linked.of_renamed ht.lookup ht.files)) (fun _ => ?_) (fun e => ?_)
    · exact Spec.pure (fun _ _ h => ⟨⟨b, he, h⟩, Or.inl (by simp)⟩)
    · exact Spec.pure (fun _ _ h => ⟨Or.inl h, Or.inl (by simp)⟩)
  | syncDirectory =>
    refine Spec.exists (fun b => Spec.assume (fun he => ?_))
    refine Spec.attempt_bind (S := fun _ => Pinned (.sst g) b)
      (syncDirectory_spec hP (fun _ _ h => h.pinned_synced)) (fun _ => ?_) (fun e => ?_)
    · exact Spec.pure (fun _ _ h => ⟨⟨b, he, h⟩, Or.inl (by simp)⟩)
    · exact Spec.pure (fun _ _ h => ⟨Or.inl h, Or.inl (by simp)⟩)
  | openReader =>
    refine Spec.exists (fun b => Spec.assume (fun he => ?_))
    refine Spec.attempt_bind (openReader_spec (fun _ _ h => h.linked) (he.openTable hF))
      (fun t => ?_) (fun e => ?_)
    · exact Spec.pure (fun _ _ h => ⟨⟨b, he, h.2, h.1⟩, Or.inl (by simp)⟩)
    · exact Spec.pure (fun _ _ h => ⟨Or.inl h, Or.inl (by simp)⟩)
  | cleanup e =>
    rintro s ⟨hq, hp, hc⟩
    have hstep : Spec q P (fun _ => True) (publishStep F o g m (.cleanup e))
        (fun stage' st => StageInv F o g m q stage' st ∧
          (stage'.remaining < (PublishStage.cleanup e).remaining ∨
            (PublishStage.cleanup e).remaining = 0)) (fun _ _ => False) := by
      refine Spec.bind (S := fun _ _ => True) (Spec.attempt
        (Spec.conseq (removeFile_spec hP hN rfl) (fun _ _ h => h) (fun _ _ _ _ => trivial)
          (fun _ _ _ _ => trivial))) (fun _ => ?_)
      exact Spec.pure (fun _ _ _ => ⟨hc, Or.inl (by simp)⟩)
    exact hstep s ⟨hq, hp, trivial⟩
  | done r => exact Spec.pure (fun _ _ h => ⟨h, Or.inr rfl⟩)

theorem runPublish_spec (hF : F.Lawful) (hP : Stable N P) (hN : ¬ N (.sstTmp g))
    (hg : g ≠ 0) (hm : m.entries ≠ [])
    (hren : ∀ st i b, Encodes F o g m b → P st → Temporary (.sstTmp g) i (.stable b) st →
      P (renamed (.sstTmp g) (.sst g) b st)) {n : Nat} {stage : PublishStage}
    (hn : stage.remaining ≤ n) :
    Spec q P (StageInv F o g m q stage) (runPublish F o g m n stage)
      (fun r st => StageInv F o g m q (.done r) st) (fun _ _ => False) := by
  induction n generalizing stage with
  | zero =>
    cases stage with
    | done r => exact Spec.pure (fun _ _ h => h)
    | _ => simp at hn
  | succ n ih =>
    cases stage with
    | done r => exact Spec.pure (fun _ _ h => h)
    | _ =>
      refine Spec.bind (publishStep_spec hF hP hN hg hm hren _) (fun stage' => ?_)
      refine fun s ⟨hq, hp, hs, hlt⟩ => ?_
      have hle : stage'.remaining ≤ n := by
        rcases hlt with hlt | hlt
        · exact Nat.le_of_lt_succ (hlt.trans_le hn)
        · simp at hlt
      exact ih hle s ⟨hq, hp, hs⟩

theorem publishTable_spec (hF : F.Lawful) (hP : Stable N P) (hN : ¬ N (.sstTmp g))
    (hg : g ≠ 0) (hm : m.entries ≠ [])
    (hren : ∀ st i b, Encodes F o g m b → P st → Temporary (.sstTmp g) i (.stable b) st →
      P (renamed (.sstTmp g) (.sst g) b st)) {R : Store → Prop} :
    Spec q P R (publishTable F o g m)
      (fun t st => ∃ b, Encodes F o g m b ∧ Pinned (.sst g) b st ∧ t = tableReader g m b)
      (fun e _ => Fault q e ∨ TableRefused F o g m e) := by
  refine Spec.bind (S := fun r st => StageInv F o g m q (.done r) st) ?_ (fun r => ?_)
  · exact Spec.conseq (runPublish_spec hF hP hN hg hm hren (le_refl _)) (fun _ _ _ => trivial)
      (fun _ _ _ h => h) (fun _ _ _ h => h.elim)
  · match r with
    | .ok t => exact Spec.pure (fun _ _ h => h)
    | .error e => exact Spec.fail (fun _ _ h => h)

end

end

end MiniKV
