import MiniKV.Sections.Steady

/-!
# `ContinueFlush`

The parts of a flush, each with what it keeps and what it leaves.
-/

namespace MiniKV

open Lib

section

variable {F : StorageFormat} {ρ : Regime} {σ : Scene} {db : Database} {st : Store} {q : Prop}
  {imm : ImmutableGeneration} {t : SSTableReader} {v : Version}

/-! ## Changes of the Immutable -/

/-- The reader of a pinned file, in every image. -/
theorem PinnedReader.files (h : PinnedReader F σ.format t st) (hpath : t.path = .sst t.generation) :
    Everywhere (fun m => Files F σ.format m [t]) st := by
  obtain ⟨b, hb, hopen⟩ := h.pinned
  rw [hpath] at hb
  refine (hb.image_eq rfl).mono (fun m hm u hu => ?_)
  rw [List.mem_singleton.mp hu]
  exact ⟨b, hm, hopen⟩

/-- While an Immutable is there, no compaction waits. -/
theorem ContentsInv.published_of_immutable {x : Contents} (h : ContentsInv ρ x) (hpl : ρ.planned)
    (himm : x.immutable = some imm) :
    ∀ c, x.compaction = some c → c.versionPublished = true := by
  intro c hc
  by_contra hun
  have hnone := ((h.pending c hc (by simpa using hun)).planned hpl).2.1
  rw [himm] at hnone
  cases hnone

/-- An Immutable with the same records shows the same. -/
theorem Contents.view_setImmutable {x : Contents} {imm' : ImmutableGeneration}
    (himm : x.immutable = some imm) (hm : imm'.memtable = imm.memtable) :
    ({ x with immutable := some imm' } : Contents).view = x.view := by
  have hrecords : ({ x with immutable := some imm' } : Contents).immutableRecords =
      x.immutableRecords := by
    simp [Contents.immutableRecords, himm, hm]
  unfold Contents.view Contents.below
  rw [hrecords]

theorem Inv.setPending (h : Inv F ρ σ db st) (hord : ρ.ordered) (himm : db.immutable = some imm)
    (hun : imm.versionPublished = false) (hnone : imm.pendingTable = none)
    (hc : t.Coherent σ.format) (hgen : t.generation = imm.generation)
    (hrec : t.records = imm.memtable.entries) (hp : PinnedReader F σ.format t st) :
    Inv F ρ σ { db with immutable := some { imm with pendingTable := some t } } st := by
  have hfmt := h.format_eq
  rw [← hfmt] at hc
  refine h.setMembers ?_ rfl (h.contents.setPending hord himm hc hgen hrec) (fun hord => h.size hord)
    (fun w hw => ⟨rfl, w, hw, rfl⟩) (fun hd => ?_) (fun ht => (h.traced ht).current)
  · exact h.scene_of rfl (Contents.view_setImmutable (x := db.contents) himm rfl) rfl rfl
  · intro δ hδ
    obtain ⟨T, I, D, M, X, hs⟩ := h.stored hd δ hδ
    refine ⟨T, I, D, M, X, hs.setPending himm hun hnone
      (h.contents.published_of_immutable (ρ.durable_imp hd).2 himm) ?_⟩
    have hfiles := hp.files hc.path_eq δ hδ
    rw [← hfmt] at hfiles
    exact hfiles

theorem Inv.flushed (h : Inv F ρ σ db st) (hord : ρ.ordered) (himm : db.immutable = some imm)
    (hun : imm.versionPublished = false) (hp : imm.pendingTable = some t)
    (happly : db.version.apply db.format (flushEditOf db.mutableGeneration imm t) = .ok v)
    {b : Bytes} (hb : F.encodeManifest db.format v = .ok b) (hpin : Pinned .manifest b st)
    (hsync : SyncedManifest b st.trace) :
    Inv F ρ σ { db with
      tables := db.tables ++ [t]
      version := v
      immutable := some { imm with pendingTable := none, versionPublished := true } } st := by
  have hi := (h.contents.order hord).immutable imm himm
  refine h.setMembers ?_ rfl (h.contents.flushed hord himm hun hp happly) (fun hord => h.size hord)
    (fun w hw => ⟨rfl, w, hw, rfl⟩) (fun hd => ?_) (fun _ => ⟨b, hb, hsync⟩)
  · exact h.scene_of rfl (Contents.view_flushed (x := db.contents) himm (hi.pending t hp).2.2) rfl rfl
  · intro δ hδ
    obtain ⟨T, I, D, M, X, hs⟩ := h.stored hd δ hδ
    exact ⟨T ++ I, [], [], M, X, hs.flushed_contents h.contents hord himm hun hp happly
      ⟨b, hb, hpin.image_eq rfl δ hδ⟩⟩

theorem Inv.setRemoved (h : Inv F ρ σ db st) (hord : ρ.ordered) (himm : db.immutable = some imm)
    (hpub : imm.versionPublished = true) :
    Inv F ρ σ { db with immutable := some { imm with walRemovedAndSynced := true } } st := by
  refine h.setMembers ?_ rfl (h.contents.setRemoved hord himm) (fun hord => h.size hord)
    (fun w hw => ⟨rfl, w, hw, rfl⟩) (fun hd => ?_) (fun ht => (h.traced ht).current)
  · exact h.scene_of rfl (Contents.view_setImmutable (x := db.contents) himm rfl) rfl rfl
  · intro δ hδ
    obtain ⟨T, I, D, M, X, hs⟩ := h.stored hd δ hδ
    exact ⟨T, I, D, M, X, hs.setRemoved himm hpub⟩

theorem Inv.dropImmutable (h : Inv F ρ σ db st) (hord : ρ.ordered)
    (hpub : ∀ imm, db.immutable = some imm → imm.versionPublished = true) :
    Inv F ρ σ { db with immutable := none } st := by
  refine h.setMembers ?_ rfl h.contents.dropImmutable (fun hord => h.size hord)
    (fun w hw => ⟨rfl, w, hw, rfl⟩) (fun hd => ?_) (fun ht => (h.traced ht).current)
  · exact h.scene_of rfl (Contents.view_dropImmutable h.contents hord hpub) rfl rfl
  · intro δ hδ
    obtain ⟨T, I, D, M, X, hs⟩ := h.stored hd δ hδ
    exact ⟨T, I, D, M, X, hs.dropImmutable hpub⟩

/-! ## The parts of a flush -/

theorem Database.set_immutable (h : db.immutable = some imm) :
    { db with immutable := some imm } = db := by
  rw [← h]

theorem ImmutableGeneration.set_pendingTable (h : imm.pendingTable = some t) :
    { imm with pendingTable := some t } = imm := by
  rw [← h]

/-- No live table has the number of an unpublished Immutable. -/
theorem ContentsInv.unused_immutable {x : Contents} (h : ContentsInv ρ x) (hpl : ρ.planned)
    (himm : x.immutable = some imm) (hun : imm.versionPublished = false)
    (hnone : imm.pendingTable = none) : x.Unused imm.generation := by
  obtain ⟨hnext, -⟩ := (h.planned hpl).fresh imm himm hun
  refine ⟨fun u hu => ?_, fun imm' u himm' hu => ?_, fun c hc hcun => ?_⟩
  · obtain ⟨vt, hvt, he⟩ := (h.planned hpl).aligned.exists_table hu
    have hlt := (VersionTable.wellFormed_iff.mp (h.version.tables vt hvt)).2.2.1
    rw [VersionTable.generation, he] at hlt
    exact (hlt.trans_le hnext).ne
  · rw [himm] at himm'
    obtain rfl := Option.some.inj himm'
    rw [hnone] at hu
    cases hu
  · rw [h.published_of_immutable hpl himm c hc] at hcun
    cases hcun

theorem flushTable_acts (hF : F.Lawful) (hord : ρ.ordered) (himm : db.immutable = some imm)
    (hun : imm.versionPublished = false) :
    Acts q (Remains F σ.format ρ) (At db (Steady F ρ σ db)) (flushTable F imm)
      (fun t d st => Steady F ρ σ d st ∧
        d = { db with immutable := some { imm with pendingTable := some t } })
      (Failed F ρ σ q) := by
  unfold flushTable
  cases hp : imm.pendingTable with
  | some t =>
    refine Acts.pure (fun st h => ⟨h, ?_⟩)
    rw [ImmutableGeneration.set_pendingTable hp, Database.set_immutable himm]
  | none =>
    refine Acts.getDb_bind (Acts.know (fun _ h => h.tidy) (fun htidy => ?_))
    refine Acts.know (fun _ h => h.inv.format_eq) (fun hfmt => ?_)
    refine Acts.know (fun _ h => h.inv.contents) (fun hcontents => ?_)
    have hi := (hcontents.order hord).immutable imm himm
    refine Acts.weaken (fun st => Inv F ρ σ db st ∧ True) ?_ (fun st h => ⟨h.inv, trivial⟩)
    refine Acts.io_bind (publishTable_spec hF Inv.stable (by simp [FileName.isTemporary])
      hi.generation_ne hi.ne_nil ?_) (fun _ h => h.remains) ?_ (fun t => ?_)
    · intro st i b _ h ht
      exact h.renamed_table ht
        (fun hd => hcontents.unused_immutable (ρ.durable_imp hd).2 himm hun hp)
    · intro e st h he
      refine ⟨⟨h, htidy⟩, fun _ => ?_⟩
      rcases he with he | he
      · exact Or.inl he
      · exact Or.inr (.table himm he)
    · refine Acts.modifyDb_bind (Acts.pure (fun st h => ?_))
      obtain ⟨h, b, hb, hpin, rfl⟩ := h
      rw [himm]
      refine ⟨⟨?_, htidy.setImmutable himm rfl rfl (by simp)⟩, rfl⟩
      rw [hfmt] at hb
      exact h.setPending hord himm hun hp (tableReader_coherent hF hb) rfl rfl
        (hb.pinnedReader hF hpin)

/-- What publishing the table of the Immutable makes of the members. -/
def Database.flushed (db : Database) (imm : ImmutableGeneration) (t : SSTableReader) (v : Version) :
    Database :=
  { db with
    tables := db.tables ++ [t]
    version := v
    immutable := some { imm with pendingTable := none, versionPublished := true } }

theorem flushVersion_acts (hF : F.Lawful) (hord : ρ.ordered)
    (himm : db.immutable = some imm) (hun : imm.versionPublished = false) :
    Acts q (Remains F σ.format ρ) (At db (Steady F ρ σ db)) (flushVersion F imm)
      (fun _ d st => Steady F ρ σ d st ∧ ∃ t v, d = db.flushed imm t v) (Failed F ρ σ q) := by
  refine Acts.bind (flushTable_acts hF hord himm hun) (fun t => Acts.fix (fun d => ?_))
  refine Acts.know (fun _ h => h.2) (fun hd => ?_)
  subst hd
  refine Acts.getDb_bind (Acts.know (fun _ h => h.1.tidy) (fun htidy => ?_))
  refine Acts.know (fun _ h => h.1.inv.contents) (fun hcontents => ?_)
  have hi := (hcontents.order hord).immutable _ rfl
  refine Acts.ofExcept_bind (fun v happly => ?_) (fun e herr st h => ⟨h.1, ?_⟩)
  · refine Acts.weaken (fun st => Inv F ρ σ _ st ∧ True) ?_ (fun st h => ⟨h.1.inv, trivial⟩)
    have hcand : Candidate (Database.contents { db with immutable := some { imm with
        pendingTable := some t } }) v (db.tables ++ [t]) := .flush rfl hun rfl happly
    refine Acts.io_bind (publishManifest_spec hF Inv.stable (by simp [FileName.isTemporary]) ?_)
      (fun _ h => h.remains) ?_ (fun _ => ?_)
    · intro st i b hb h ht
      have hnew := hcontents.flushed hord rfl hun rfl happly
      exact h.renamed_manifest hF hb ht (fun _ => ⟨(hnew.order hord).separate, hnew.sorted,
        (hnew.order hord).id_word⟩) (fun _ => ⟨_, hcand⟩)
    · intro e st h he
      refine ⟨⟨h, htidy⟩, fun _ => ?_⟩
      rcases he with he | he
      · exact Or.inl he
      · exact Or.inr (.manifest hcand he)
    · refine Acts.modifyDb (fun st h => ?_)
      obtain ⟨h, b, hb, hpin, hsync⟩ := h
      exact ⟨⟨h.flushed hord rfl hun rfl happly hb hpin hsync,
        htidy.setImmutable rfl rfl rfl (by simp)⟩, t, v, rfl⟩
  · -- nothing was written beside a waiting compaction, so only ids can be missing
    intro hpl
    by_cases hid : db.version.id = maxUInt64
    · have hstatus := herr.symm.trans (Version.apply_exhausted hcontents.version hid _)
      exact Or.inr (.versionId hid (Except.error.inj hstatus))
    · obtain ⟨hc, hgen, hrec⟩ := hi.pending t rfl
      obtain ⟨v, hv⟩ := hcontents.flush_apply hord hpl rfl hun hc hgen hrec hid
      cases herr.symm.trans hv

/-- The log of a published Immutable is obsolete. -/
theorem ContentsInv.obsolete_immutable {x : Contents} (h : ContentsInv ρ x) (hord : ρ.ordered)
    (hpl : ρ.planned) (himm : x.immutable = some imm) (hpub : imm.versionPublished = true) :
    x.version.Obsolete imm.walPath := by
  have hi := (h.order hord).immutable imm himm
  obtain ⟨u, hu, hgen, -⟩ := hi.published hpub
  obtain ⟨vt, hvt, he⟩ := (h.planned hpl).aligned.exists_table hu
  have hlt := (VersionTable.wellFormed_iff.mp (h.version.tables vt hvt)).2.2.1
  rw [VersionTable.generation, he] at hlt
  rw [hi.walPath, ← hgen]
  exact hlt

theorem flushWal_acts (hF : F.Lawful) (hord : ρ.ordered) (himm : db.immutable = some imm)
    (hpub : imm.versionPublished = true) :
    Acts q (Remains F σ.format ρ) (At db (Steady F ρ σ db)) (flushWal imm)
      (fun _ d st => Steady F ρ σ d st ∧
        d = { db with immutable := some { imm with walRemovedAndSynced := true } })
      (Failed F ρ σ q) := by
  refine Acts.know (fun _ h => h.tidy) (fun htidy => ?_)
  refine Acts.know (fun _ h => h.inv.contents) (fun hcontents => ?_)
  have hi := (hcontents.order hord).immutable imm himm
  refine Acts.weaken (fun st => Inv F ρ σ db st ∧ True) ?_ (fun st h => ⟨h.inv, trivial⟩)
  refine Acts.io_bind (removeFile_inv hF (by rw [hi.walPath]; simp) (fun hd =>
    hcontents.obsolete_immutable hord (ρ.durable_imp hd).2 himm hpub)) (fun _ h => h.remains)
    (fun e st h he => ⟨⟨h, htidy⟩, fun _ => Or.inl he⟩) (fun _ => ?_)
  refine Acts.io_bind (syncDirectory_spec Inv.stable (Q := fun _ _ => True) (fun _ _ _ => trivial))
    (fun _ h => h.remains) (fun e st h he => ⟨⟨h, htidy⟩, fun _ => Or.inl he⟩) (fun _ => ?_)
  refine Acts.modifyDb (fun st h => ?_)
  rw [himm]
  exact ⟨⟨h.1.setRemoved hord himm hpub, htidy.setImmutable himm rfl rfl (by simp)⟩, rfl⟩

/-! ## The whole of it -/

/-- What a flush that has come to its end makes of the members. -/
structure FlushDone (db d : Database) : Prop where
  immutable : d.immutable = none
  idle : db.immutable = none → d = db
  wal : db.immutable ≠ none → d.wal ≠ none
  others : ∃ ts v w, d = { db with tables := ts, version := v, immutable := none, wal := w }

/-- The end of a flush: the next log is opened and the Immutable let go. -/
theorem flushEnd_acts (hord : ρ.ordered) (himm : db.immutable = some imm)
    (hpub : imm.versionPublished = true) :
    Acts q (Remains F σ.format ρ) (At db (Steady F ρ σ db))
      (do
        openMutableWal
        modifyDb (fun db => { db with immutable := none }))
      (fun _ d st => Steady F ρ σ d st ∧
        ∃ w, d = { db with immutable := none, wal := some w }) (Failed F ρ σ q) := by
  have hall : ∀ imm', db.immutable = some imm' → imm'.versionPublished = true := by
    intro imm' himm'
    rw [himm] at himm'
    rw [← Option.some.inj himm']
    exact hpub
  refine Acts.know (fun _ h => h.tidy) (fun htidy => ?_)
  refine Acts.bind (S := fun _ d st => Inv F ρ σ d st ∧ ∃ w, d = { db with wal := some w } ∧
    (db.wal = some w ∨ w.status = .ok)) ?_ (fun _ => Acts.fix (fun d => ?_))
  · refine openMutableWal_acts.conseq ?_ (fun _ _ _ h => h) ?_
    · rintro d st ⟨rfl, h⟩
      exact ⟨rfl, h.inv, h.inv.sealed hall⟩
    · rintro e d st ⟨rfl, h, hnq⟩
      exact ⟨⟨h, htidy⟩, fun _ => Or.inl hnq⟩
  · refine Acts.know (fun _ h => h.2) (fun ⟨w, hd, hstatus⟩ => ?_)
    subst hd
    refine Acts.modifyDb (fun st h => ⟨⟨h.1.dropImmutable hord hall, ?_⟩, w, rfl⟩)
    refine ⟨fun hpl c hc hadv => ?_, fun _ hw => (by cases hw), fun _ hne => absurd rfl hne,
      fun w' hw' => ?_, htidy.published, htidy.removable⟩
    · have hnone := (htidy.advanced hpl c hc hadv).2.2
      rw [himm] at hnone
      cases hnone
    · rw [← Option.some.inj hw']
      exact hstatus.elim (htidy.writer w) Or.inl

theorem continueFlush_acts (hF : F.Lawful) (hord : ρ.ordered) :
    Acts q (Remains F σ.format ρ) (At db (Steady F ρ σ db)) (continueFlush F)
      (fun _ d st => Steady F ρ σ d st ∧ FlushDone db d) (Failed F ρ σ q) := by
  refine Acts.getDb_bind ?_
  cases himm : db.immutable with
  | none =>
    refine Acts.pure (fun st h => ⟨h, himm, fun _ => rfl, fun hne => absurd himm hne, ?_⟩)
    exact ⟨db.tables, db.version, db.wal, by rw [← himm]⟩
  | some imm =>
    -- the Version is published, now or before
    refine Acts.unless (S := fun d st => Steady F ρ σ d st ∧ ∃ imm' ts v,
      d = { db with tables := ts, version := v, immutable := some imm' } ∧
        imm'.versionPublished = true ∧ imm'.walPath = imm.walPath) ?_ (fun hun => ?_)
      (Acts.fix (fun d => ?_))
    · rintro hpub d st ⟨rfl, h⟩
      refine ⟨h, imm, d.tables, d.version, ?_, hpub, rfl⟩
      rw [← himm]
    · refine (flushVersion_acts hF hord himm (by simpa using hun)).conseq (fun _ _ h => h) ?_
        (fun _ _ _ h => h)
      rintro _ d st ⟨h, t, v, rfl⟩
      exact ⟨h, _, _, _, rfl, rfl, rfl⟩
    refine Acts.know (fun _ h => h.2) (fun ⟨imm', ts, v, hd, hpub, hpath⟩ => ?_)
    subst hd
    -- its log is removed, now or before
    refine Acts.unless (S := fun d st => Steady F ρ σ d st ∧ ∃ imm'',
      d = { db with tables := ts, version := v, immutable := some imm'' } ∧
        imm''.versionPublished = true) ?_ (fun _ => ?_) (Acts.fix (fun d => ?_))
    · rintro _ d st ⟨rfl, h⟩
      exact ⟨h.1, imm', rfl, hpub⟩
    · refine Acts.weaken _ ?_ (fun st h => h.1)
      rw [show flushWal imm = flushWal imm' by rw [flushWal, flushWal, hpath]]
      refine (flushWal_acts hF hord rfl hpub).conseq (fun _ _ h => h) ?_ (fun _ _ _ h => h)
      rintro _ d st ⟨h, rfl⟩
      exact ⟨h, _, rfl, hpub⟩
    refine Acts.know (fun _ h => h.2) (fun ⟨imm'', hd, hpub'⟩ => ?_)
    subst hd
    refine Acts.weaken _ ?_ (fun st h => h.1)
    refine (flushEnd_acts hord rfl hpub').conseq (fun _ _ h => h) ?_ (fun _ _ _ h => h)
    rintro _ d st ⟨h, w, rfl⟩
    refine ⟨h, rfl, fun hnone => ?_, fun _ => by simp, ts, v, some w, rfl⟩
    rw [himm] at hnone
    cases hnone

end

end MiniKV
