import MiniKV.State.Invariant
import MiniKV.Storage.Acts

/-!
# How file operations and changes of the members keep the invariant

Each operation on a file that recovery reads is one lemma here, with what the
database has to guarantee for it; so is each kind of change to the members.
-/

namespace MiniKV

open Lib

section

variable {F : StorageFormat} {ρ : Regime} {σ : Scene} {db : Database} {st : Store}

/-! ## Renaming a finished file into place -/

theorem WalFile.renamed {i j : Inode} {src dst : FileName} {b : Bytes} (h : WalFile i st.disk)
    (hl : st.disk.lookup src = some j) (hsrc : ∀ n, src ≠ .wal n) :
    WalFile i (renamed src dst b st).disk := by
  refine ⟨h.lt, fun δ hδ f hf => ?_⟩
  rcases Disk.mem_states_setDir.mp hδ with rfl | hδ
  · rw [Dir.lookup_move hl] at hf
    split at hf
    · -- the renamed file is not the log
      obtain rfl := Option.some.inj hf
      obtain ⟨n, hn⟩ := h.named _ (Volatile.current_mem_states _) src hl
      exact absurd hn (hsrc n)
    · split at hf
      · cases hf
      · exact h.named _ (Volatile.current_mem_states _) f hf
  · exact h.named δ hδ f hf

theorem temporary_ne_wal {f : FileName} (h : f.isTemporary = true) (n : Nat) : f ≠ .wal n := by
  rintro rfl
  cases h

theorem Inv.renamed (h : Inv F ρ σ db st) {src dst : FileName} {i : Inode} {b : Bytes}
    (hsrc : src.isTemporary = true) (hdst : dst.Core) (hwal : ∀ n, dst ≠ .wal n)
    (ht : Temporary src i (.stable b) st)
    (hman : ρ.ordered → ManifestSeparate F db.format
      (Function.update (currentImage st) dst (some (.stable b))))
    (hstored : ρ.durable → StoredIn F ρ db.contents db.wal st.history
      (Function.update (currentImage st) dst (some (.stable b))))
    (htop : ρ.traced → Topped F db.format (MiniKV.renamed src dst b st)) :
    Inv F ρ σ db (MiniKV.renamed src dst b st) := by
  have hcore : ¬ src.Core := by simp [hsrc]
  have hne := temporary_ne_wal hsrc
  refine h.step (h.wf.rename ht.lookup (ht.owned.private hcore) hwal) rfl
    (fun hord => (h.manifests hord).renamed hcore hdst ht (hman hord)) (le_refl _)
    (fun w hw => (h.wal w hw).renamed ht.lookup hne) ?_
    (fun hd => (h.stored hd).renamed hcore hdst ht (hstored hd)) ?_
  · intro hd w hw δ hδ
    rcases Disk.mem_states_setDir.mp hδ with rfl | hδ
    · rw [Dir.lookup_move ht.lookup, if_neg (fun he => hwal _ he.symm),
        if_neg (fun he => hne _ he.symm)]
      exact h.linked hd w hw _ (Volatile.current_mem_states _)
    · exact h.linked hd w hw δ hδ
  · intro htr
    obtain ⟨hj, ⟨b', hb', hs⟩, -⟩ := h.traced htr
    exact ⟨hj, ⟨b', hb', hs.cons _⟩, htop htr⟩

theorem ManifestSeparate.update {o : FormatOptions} {m : Image} (h : ManifestSeparate F o m)
    {f : FileName} (hf : FileName.manifest ≠ f) (v : Option (Volatile Bytes)) :
    ManifestSeparate F o (Function.update m f v) := by
  intro u hu
  rw [Function.update_of_ne hf] at hu
  exact h u hu

theorem currentImage_renamed {src dst : FileName} {i : Inode} {b : Bytes} (hsrc : ¬ src.Core)
    (hdst : dst.Core) (ht : Temporary src i (.stable b) st) :
    currentImage (renamed src dst b st) =
      Function.update (currentImage st) dst (some (.stable b)) :=
  image_renamed hsrc hdst ht.lookup ht.files

/-- A table whose number nothing uses yet. -/
theorem Inv.renamed_table (h : Inv F ρ σ db st) {g : Nat} {i : Inode} {b : Bytes}
    (ht : Temporary (.sstTmp g) i (.stable b) st) (hu : ρ.durable → db.contents.Unused g) :
    Inv F ρ σ db (MiniKV.renamed (.sstTmp g) (.sst g) b st) := by
  refine h.renamed rfl rfl (fun n => (by simp)) ht
    (fun hord => (h.manifests hord).current.update (by simp) _) ?_ ?_
  · intro hd
    obtain ⟨T, I, D, M, X, hs⟩ := (h.stored hd).current
    exact ⟨T, I, D, M, X, hs.update_sst (h.next_le (ρ.durable_imp hd).1) (hu hd) _⟩
  · intro htr u hu'
    rw [currentImage_renamed (by simp [FileName.isTemporary]) rfl ht]
    rcases hu'.of_cons with ⟨b', hb', -⟩ | hu'
    · cases hb'
    · obtain ⟨w, hw, hle⟩ := (h.traced htr).topped u hu'
      exact ⟨w, hw.update (by simp) _, hle⟩

/-! ## Candidates -/

theorem ManifestIs.unique (hF : F.Lawful) {o : FormatOptions} {m : Image} {u w : Version}
    (hu : ManifestIs F o m u) (hw : ManifestIs F o m w) : u = w := by
  obtain ⟨b, hb, hm⟩ := hu
  obtain ⟨b', hb', hm'⟩ := hw
  rw [hm] at hm'
  cases hm'
  have h1 := hF.decodeManifest_encodeManifest hb
  rw [hF.decodeManifest_encodeManifest hb'] at h1
  exact (Except.ok.inj h1).symm

/-- Only one Version can be on its way, and it is not behind the one in memory. -/
theorem Candidate.unique {x : Contents} {u w : Version} {ts us : List SSTableReader}
    (hinv : ContentsInv ρ x) (hpl : ρ.planned) (hu : Candidate x u ts) (hw : Candidate x w us) :
    u = w := by
  have hno : ∀ (imm : ImmutableGeneration) (c : CompactionState), x.immutable = some imm →
      x.compaction = some c → c.versionPublished = false → False := by
    intro imm c himm hc hun
    have := ((hinv.pending c hc hun).planned hpl).2.1
    rw [himm] at this
    cases this
  cases hu with
  | flush himm _ hp ha =>
    cases hw with
    | flush himm' _ hp' ha' =>
      rw [himm] at himm'
      cases himm'
      rw [hp] at hp'
      cases hp'
      rw [ha] at ha'
      exact Except.ok.inj ha'
    | compaction hc hun _ => exact (hno _ _ himm hc hun).elim
  | compaction hc hun _ =>
    cases hw with
    | flush himm _ _ _ => exact (hno _ _ himm hc hun).elim
    | compaction hc' _ _ =>
      rw [hc] at hc'
      cases hc'
      rfl

theorem Candidate.next_le {x : Contents} {u : Version} {ts : List SSTableReader}
    (hinv : ContentsInv ρ x) (hord : ρ.ordered) (hpl : ρ.planned) (hu : Candidate x u ts) :
    x.version.nextFileNumber ≤ u.nextFileNumber := by
  cases hu with
  | flush himm hun hp ha =>
    rw [(flushedVersion_of_apply hinv.sorted ha).next]
    exact (hinv.order hord).next_le
  | compaction hc hun hready =>
    have hcand := (hinv.pending _ hc hun).ready hready
    obtain ⟨hacc, hw⟩ := Version.apply_eq_ok.mp (hcand.planned hpl)
    rw [hw]
    exact hacc.next_le

/-- The MANIFEST of a candidate. -/
theorem Inv.renamed_manifest (hF : F.Lawful) (h : Inv F ρ σ db st) {i : Inode} {b : Bytes}
    {u : Version} (hb : F.encodeManifest db.format u = .ok b)
    (ht : Temporary .manifestTmp i (.stable b) st)
    (hsep : ρ.ordered → u.Separate ∧ u.tables.Pairwise generationLe ∧ u.id ≤ maxUInt64)
    (hc : ρ.durable → ∃ ts, Candidate db.contents u ts) :
    Inv F ρ σ db (MiniKV.renamed .manifestTmp .manifest b st) := by
  refine h.renamed rfl rfl (fun n => (by simp)) ht ?_ ?_ ?_
  · intro hord v hv
    rw [Function.update_self] at hv
    exact ⟨u, b, (Option.some.inj hv).symm, hb, hsep hord⟩
  · intro hd
    obtain ⟨ts, hcand⟩ := hc hd
    obtain ⟨T, I, D, M, X, hs⟩ := (h.stored hd).current
    exact ⟨T, I, D, M, X, hs.update_manifest (h.next_le (ρ.durable_imp hd).1) hcand hb⟩
  · -- what was in place before is the Version in memory, or this very candidate
    intro htr v hv
    have hd := ρ.traced_imp htr
    obtain ⟨hord, hpl⟩ := ρ.durable_imp hd
    obtain ⟨ts, hcand⟩ := hc hd
    have hnew : ManifestIs F db.format
        (currentImage (MiniKV.renamed .manifestTmp .manifest b st)) u := by
      rw [currentImage_renamed (by simp [FileName.isTemporary]) rfl ht]
      exact ⟨b, hb, Function.update_self _ _ _⟩
    refine ⟨u, hnew, ?_⟩
    rcases hv.of_cons with ⟨b', hb', hdec⟩ | hv
    · cases hb'
      rw [hF.decodeManifest_encodeManifest hb] at hdec
      rw [Except.ok.inj hdec]
    · obtain ⟨w, hw, hle⟩ := (h.traced htr).topped v hv
      refine hle.trans ?_
      obtain ⟨T, I, D, M, X, hs⟩ := (h.stored hd).current
      rcases hs.manifest with hm | ⟨w', us, hcand', hm⟩
      · rw [hw.unique hF hm]
        exact hcand.next_le h.contents hord hpl
      · rw [hw.unique hF hm, Candidate.unique h.contents hpl hcand' hcand]

/-! ## Removing a file that is no longer needed -/

/-- What the Version has dropped nothing in memory refers to. -/
theorem ContentsInv.unused {x : Contents} (h : ContentsInv ρ x) (hord : ρ.ordered)
    (hpl : ρ.planned) {n : Nat} (hn : x.version.Obsolete (.sst n)) : x.Unused n := by
  obtain ⟨hlt, hdead⟩ := hn
  have ha := (h.planned hpl).aligned
  have htables : ∀ t ∈ x.tables, t.generation ≠ n := by
    intro t ht
    obtain ⟨vt, hvt, he⟩ := ha.exists_table ht
    rw [SSTableReader.generation, ← he]
    exact hdead vt hvt
  refine ⟨htables, ?_, ?_⟩
  · intro imm t himm hp
    have hi := (h.order hord).immutable imm himm
    rw [(hi.pending t hp).2.1]
    cases hpub : imm.versionPublished with
    | false =>
      have := ((h.planned hpl).fresh imm himm hpub).1
      omega
    | true =>
      obtain ⟨u, hu, hgen, -⟩ := hi.published hpub
      rw [← hgen]
      exact htables u hu
  · intro c hc hun t ht
    have hp := h.pending c hc hun
    rcases hp.outputs with hnil | hout
    · rw [hnil] at ht
      cases ht
    · have h1 := (hout.numbers.2 t ht).1
      rw [(hp.planned hpl).1.first] at h1
      omega

theorem WalFile.removed {i : Inode} {f : FileName} (h : WalFile i st.disk) :
    WalFile i (st.disk.remove f) := by
  refine ⟨h.lt, fun δ hδ g hg => ?_⟩
  rcases Disk.mem_states_setDir.mp hδ with rfl | hδ
  · rw [Dir.lookup_unlink] at hg
    split at hg
    · cases hg
    · exact h.named _ (Volatile.current_mem_states _) g hg
  · exact h.named δ hδ g hg

theorem Inv.removed (hF : F.Lawful) (h : Inv F ρ σ db st) {f : FileName}
    (hf : FileName.manifest ≠ f) (hobs : ρ.durable → db.version.Obsolete f) :
    Inv F ρ σ db ((st.onDisk (·.remove f)).note (.removed f)) := by
  refine h.step (h.wf.remove f) rfl
    (fun hord => (h.manifests hord).removed ((h.manifests hord).current.update hf _)) (le_refl _)
    (fun w hw => (h.wal w hw).removed) ?_ ?_ ?_
  · intro hd w hw δ hδ
    rcases Disk.mem_states_setDir.mp hδ with rfl | hδ
    · rw [Dir.lookup_unlink, if_neg]
      · exact h.linked hd w hw _ (Volatile.current_mem_states _)
      · -- the active log is not obsolete
        intro he
        have hlt := hobs hd
        rw [← he] at hlt
        exact absurd (lt_of_lt_of_le hlt (h.next_le (ρ.durable_imp hd).1)) (lt_irrefl _)
    · exact h.linked hd w hw δ hδ
  · intro hd
    obtain ⟨hord, hpl⟩ := ρ.durable_imp hd
    refine (h.stored hd).removed ?_
    obtain ⟨T, I, D, M, X, hs⟩ := (h.stored hd).current
    refine ⟨T, I, D, M, X, ?_⟩
    cases f with
    | wal n => exact hs.remove_wal (h.next_le hord) (hobs hd)
    | sst n => exact hs.update_sst (h.next_le hord) (h.contents.unused hord hpl (hobs hd)) none
    | manifest => exact (hobs hd).elim
    | manifestTmp => exact (hobs hd).elim
    | sstTmp n => exact (hobs hd).elim
    | other name hname => exact (hobs hd).elim
  · intro htr
    obtain ⟨hj, ⟨b, hb, hs⟩, htop⟩ := h.traced htr
    refine ⟨⟨fun _ => ⟨b, db.version, hs, hF.decodeManifest_encodeManifest hb,
      hobs (ρ.traced_imp htr)⟩, hj⟩, ⟨b, hb, hs.cons _⟩, fun u hu => ?_⟩
    rcases hu.of_cons with ⟨b', hb', -⟩ | hu
    · cases hb'
    · obtain ⟨w, hw, hle⟩ := htop u hu
      refine ⟨w, ?_, hle⟩
      have hi : currentImage ((st.onDisk (·.remove f)).note (.removed f)) =
          Function.update (currentImage st) f none := image_unlink
      rw [hi]
      exact hw.update hf none

theorem removeFile_inv (hF : F.Lawful) {q : Prop} {f : FileName} (hf : FileName.manifest ≠ f)
    (hobs : ρ.durable → db.version.Obsolete f) :
    Spec q (Inv F ρ σ db) (fun _ => True) (removeFile f) (fun _ _ => True) (fun e _ => Fault q e) := by
  refine Spec.get_bind (fun s _ _ => ?_)
  cases s.store.disk.lookup f with
  | none => exact Spec.atomically (fun _ h _ => h) (fun _ _ _ => trivial) (fun hq _ _ _ => ⟨⟨hq, rfl⟩, ⟨hq, rfl⟩⟩)
  | some i =>
    refine Spec.atomically (fun st h _ => ?_) (fun _ _ _ => trivial) (fun hq _ _ _ => ⟨⟨hq, rfl⟩, ⟨hq, rfl⟩⟩)
    exact Inv.removed hF h hf hobs

/-! ## Opening the next log -/

/-- An image with all that is frozen on stable storage, so that the next log may appear. -/
def StoredSealed (F : StorageFormat) (ρ : Regime) (x : Contents) (H : List Label) (m : Image) :
    Prop :=
  ∃ T I M X, Stored F ρ x none H m T I [] M X ∧ ρ.Seals I

theorem Inv.created (h : Inv F ρ σ db st) (hw : db.wal = none)
    (hs : ρ.durable → Everywhere (StoredSealed F ρ db.contents st.history) st) :
    Inv F ρ σ db (st.onDisk (·.create (.wal db.mutableGeneration))) := by
  have hno : ∀ w, db.wal ≠ some w := by
    intro w he
    rw [hw] at he
    cases he
  refine h.step (h.wf.create _) rfl
    (fun hord => (h.manifests hord).created h.wf rfl ((h.manifests hord).current.update (by simp) _))
    (by rw [hw]; exact le_refl _) (fun w he => absurd he (hno w)) (fun _ w he => absurd he (hno w))
    ?_ ?_
  · intro hd
    refine (h.stored hd).created h.wf rfl ?_
    obtain ⟨T, I, M, X, hst, hI⟩ := (hs hd).current
    rw [hw]
    exact ⟨T, I, [], M, X, hst.create_wal rfl hI⟩
  · intro htr
    obtain ⟨hj, hcur, htop⟩ := h.traced htr
    refine ⟨hj, hcur, fun u hu => ?_⟩
    obtain ⟨w, hw', hle⟩ := htop u hu
    rw [currentImage_created h.wf rfl]
    exact ⟨w, hw'.update (by simp) _, hle⟩

theorem openAppend_inv {q : Prop} (hw : db.wal = none) :
    Spec q (Inv F ρ σ db)
      (fun st => ρ.durable → Everywhere (StoredSealed F ρ db.contents st.history) st)
      (openAppend (.wal db.mutableGeneration))
      (fun i st => st.disk.lookup (.wal db.mutableGeneration) = some i) (fun e _ => Fault q e) := by
  refine Spec.get_bind (fun s _ _ => ?_)
  cases hl : s.store.disk.lookup (.wal db.mutableGeneration) with
  | some i =>
    refine Spec.bind (S := fun _ st => st = s.store) ?_ (fun _ => Spec.pure (fun st _ he => ?_))
    · exact Spec.atomically (fun _ h _ => h) (fun _ _ h => h.1) (fun hq _ _ _ => ⟨⟨hq, rfl⟩, ⟨hq, rfl⟩⟩)
    · rw [he]
      exact hl
  | none =>
    refine Spec.get_bind (fun s' _ _ => ?_)
    refine Spec.bind
      (S := fun _ st => st.disk.lookup (.wal db.mutableGeneration) = some s'.store.disk.fresh)
      ?_ (fun _ => Spec.pure (fun _ _ h => h))
    refine Spec.atomically (fun st h hr => h.created hw hr.2.2) ?_ (fun hq _ _ _ => ⟨⟨hq, rfl⟩, ⟨hq, rfl⟩⟩)
    rintro st - ⟨rfl, -⟩
    exact Disk.lookup_create_self _ _

/-! ## Changing the members -/

theorem Inv.setMembers (h : Inv F ρ σ db st) {db' : Database} {σ' : Scene}
    (hscene : sceneOf db' st = σ') (ho : db'.options = db.options)
    (hc : ContentsInv ρ db'.contents) (hsize : ρ.ordered → SizeInv db'.contents db'.wal st.disk)
    (hwal : ∀ w, db'.wal = some w → db'.mutableGeneration = db.mutableGeneration ∧
      ∃ w', db.wal = some w' ∧ w'.file = w.file)
    (hstored : ρ.durable → Everywhere (StoredIn F ρ db'.contents db'.wal st.history) st)
    (htraced : ρ.traced → ∃ b, F.encodeManifest db.format db'.version = .ok b ∧
      SyncedManifest b st.trace) : Inv F ρ σ' db' st := by
  have hfmt : db'.format = db.format := by rw [Database.format, ho]
  refine ⟨hscene, hc, h.wf, by rw [hfmt]; exact h.manifests, hsize, ?_, ?_, hstored, ?_⟩
  · intro w hw
    obtain ⟨-, w', hw', he⟩ := hwal w hw
    rw [← he]
    exact h.wal w' hw'
  · intro hd w hw
    obtain ⟨hg, w', hw', he⟩ := hwal w hw
    rw [hg, ← he]
    exact h.linked hd w' hw'
  · intro htr
    rw [hfmt]
    exact ⟨(h.traced htr).justified, htraced htr, (h.traced htr).topped⟩

/-- The writer of a log that is there in every directory state. -/
theorem Inv.attach (h : Inv F ρ σ db st) (hw : db.wal = none) {i : Inode}
    (hl : ∀ δ ∈ st.disk.dir.states, Dir.lookup δ (.wal db.mutableGeneration) = some i) :
    Inv F ρ σ { db with wal := some { file := i } } st := by
  have hcur := hl _ (Volatile.current_mem_states _)
  have hfile : WalFile i st.disk := by
    refine ⟨h.wf.linked _ (Volatile.current_mem_states _) _ i hcur, fun δ hδ f hf => ?_⟩
    exact ⟨_, h.wf.logs _ (Volatile.current_mem_states _) δ hδ _ f i hcur hf⟩
  refine ⟨h.scene, h.contents, h.wf, h.manifests, ?_, ?_, ?_, ?_, h.traced⟩
  · intro hord
    obtain ⟨carry, h1, h2, h3⟩ := h.size hord
    refine ⟨carry, h1, h2, ?_⟩
    rw [hw] at h3
    exact h3.trans (Nat.add_le_add_left (Nat.zero_le _) _)
  · intro w he
    rw [← Option.some.inj he]
    exact hfile
  · intro _ w he δ hδ
    rw [← Option.some.inj he]
    exact hl δ hδ
  · intro hd δ hδ
    obtain ⟨T, I, D, M, X, hs⟩ := h.stored hd δ hδ
    rw [hw] at hs
    refine ⟨T, I, D, M, X, hs.attach ?_ i⟩
    show image st.disk δ (.wal db.mutableGeneration) ≠ none
    rw [image_of_core rfl, hl δ hδ]
    simp

theorem Database.set_wal {w : WalWriter} (h : db.wal = some w) : { db with wal := some w } = db := by
  rw [← h]

/-- `OpenMutableWal` gives the database a writer. -/
theorem openMutableWal_acts {q : Prop} :
    Acts q (Remains F σ.format ρ)
      (At db (fun st => Inv F ρ σ db st ∧ (db.wal = none → ρ.durable →
        Everywhere (StoredSealed F ρ db.contents st.history) st))) openMutableWal
      (fun _ d st => Inv F ρ σ d st ∧ ∃ w, d = { db with wal := some w } ∧
        (db.wal = some w ∨ w.status = .ok))
      (fun e d st => d = db ∧ Inv F ρ σ db st ∧ Fault q e) := by
  refine Acts.getDb_bind ?_
  cases hw : db.wal with
  | some w =>
    refine Acts.pure (fun st ⟨h, _⟩ => ⟨h, w, ?_, Or.inl rfl⟩)
    exact (Database.set_wal hw).symm
  | none =>
    refine Acts.weaken (fun st => Inv F ρ σ db st ∧ (ρ.durable →
      Everywhere (StoredSealed F ρ db.contents st.history) st)) ?_ (fun st h => ⟨h.1, h.2 rfl⟩)
    refine Acts.io_bind (openAppend_inv hw) (fun _ h => h.remains)
      (fun e st h hq => ⟨rfl, h, hq⟩) (fun i => ?_)
    refine Acts.io_bind (syncDirectory_spec Inv.stable (Q := fun _ st =>
        ∀ δ ∈ st.disk.dir.states, Dir.lookup δ (.wal db.mutableGeneration) = some i) ?_)
      (fun _ h => h.remains) (fun e st h hq => ⟨rfl, h, hq⟩) (fun _ => ?_)
    · intro st _ hl δ hδ
      rw [List.mem_singleton.mp hδ]
      exact hl
    · refine Acts.modifyDb (fun st h => ⟨h.1.attach hw h.2, _, rfl, Or.inr rfl⟩)

end

end MiniKV
