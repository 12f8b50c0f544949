import MiniKV.Sections.Flush

/-!
# `ContinueCompaction`

The parts of a compaction, each with what it keeps and what it leaves. Every
part looks at the pending state first, so a compaction that failed is taken up
again where it stopped.
-/

namespace MiniKV

open Lib

section

variable {F : StorageFormat} {ρ : Regime} {σ : Scene} {db : Database} {st : Store} {q : Prop}
  {c : CompactionState}

theorem Database.set_compaction (h : db.compaction = some c) :
    { db with compaction := some c } = db := by
  rw [← h]

/-! ## Changes of the pending compaction -/

/-- With another pending compaction the Mutable is as large as before. -/
theorem SizeInv.setCompaction {x : Contents} {w : Option WalWriter} {d : Disk} (h : SizeInv x w d)
    {c' : Option CompactionState}
    (hw : ∀ c, c' = some c → c.versionPublished = false → x.Waiting) :
    SizeInv { x with compaction := c' } w d := by
  obtain ⟨carry, h1, h2, h3⟩ := h
  exact ⟨carry, h1, fun ⟨c, hc, hun⟩ => h2 (hw c hc hun), h3⟩

theorem Inv.plan (h : Inv F ρ σ db st) (hnone : db.compaction = none)
    (hlen : db.tables.length = db.version.tables.length) (himm : db.immutable = none)
    (hmut : db.mutableTable.entries = []) (hp : Planned db.version db.tables c) :
    Inv F ρ σ { db with compaction := some c } st := by
  refine h.setMembers (h.scene_of rfl rfl rfl rfl) rfl (h.contents.plan hlen himm hmut hp)
    (fun _ => ⟨0, Nat.zero_le _, fun _ => rfl, ?_⟩) (fun w hw => ⟨rfl, w, hw, rfl⟩) (fun hd => ?_)
    (fun ht => (h.traced ht).current)
  · have hsize : db.mutableTable.approximateDataSize = 0 := by
      rw [db.mutableTable.size_eq, hmut]
      rfl
    show db.mutableTable.approximateDataSize ≤ _
    omega
  · intro δ hδ
    obtain ⟨T, I, D, M, X, hs⟩ := h.stored hd δ hδ
    refine ⟨T, I, D, M, X, hs.setCompaction ?_ ?_⟩
    · intro c' hc'
      have hc : db.compaction = some c' := hc'
      rw [hnone] at hc
      cases hc
    · intro c' hc' _
      obtain rfl := Option.some.inj hc'
      rw [hp.published]
      exact fun t ht => (by cases ht)

theorem files_of_pinned {ts : List SSTableReader} (h : ∀ t ∈ ts, PinnedReader F σ.format t st)
    (hpath : ∀ t ∈ ts, t.path = .sst t.generation) :
    Everywhere (fun m => Files F σ.format m ts) st := by
  intro δ hδ t ht
  exact (h t ht).files (hpath t ht) δ hδ t (List.mem_singleton.mpr rfl)

theorem Inv.setOutputs (h : Inv F ρ σ db st) (hc : db.compaction = some c)
    (hun : c.versionPublished = false) (hready : c.candidateReady = false)
    {outputs : List SSTableReader}
    (hout : OutputReaders db.format c.firstOutputFileNumber c.outputMemtables outputs)
    (hpin : ∀ t ∈ outputs, PinnedReader F σ.format t st) :
    Inv F ρ σ { db with compaction := some { c with publishedOutputs := outputs } } st := by
  have hfmt := h.format_eq
  refine h.setMembers (h.scene_of rfl rfl rfl rfl) rfl
    (h.contents.setOutputs hc hun hready hout) (fun hord => ?_) (fun w hw => ⟨rfl, w, hw, rfl⟩)
    (fun hd => ?_) (fun ht => (h.traced ht).current)
  · exact (h.size hord).setCompaction (fun _ _ _ => ⟨c, hc, hun⟩)
  · intro δ hδ
    obtain ⟨T, I, D, M, X, hs⟩ := h.stored hd δ hδ
    refine ⟨T, I, D, M, X, hs.setCompaction ?_ ?_⟩
    · intro c' hc' _
      rw [← Option.some.inj (hc.symm.trans hc'), hready]
    · intro c' hc' _
      obtain rfl := Option.some.inj hc'
      have hfiles := files_of_pinned hpin (fun t ht => (hout.coherent t ht).path_eq) δ hδ
      rw [← hfmt] at hfiles
      exact hfiles

theorem Inv.setCandidate (h : Inv F ρ σ db st) (hc : db.compaction = some c)
    (hun : c.versionPublished = false) (hready : c.candidateReady = false)
    (hout : OutputReaders db.format c.firstOutputFileNumber c.outputMemtables c.publishedOutputs)
    {v : Version} {stats : CompactionStats}
    (happly : db.version.apply db.format (compactionEdit c) = .ok v) :
    Inv F ρ σ { db with compaction := some { c with
      candidate := v, candidateReady := true, stats := stats } } st := by
  refine h.setMembers (h.scene_of rfl rfl rfl rfl) rfl
    (h.contents.setCandidate hc hun hout happly) (fun hord => ?_) (fun w hw => ⟨rfl, w, hw, rfl⟩)
    (fun hd => ?_) (fun ht => (h.traced ht).current)
  · exact (h.size hord).setCompaction (fun _ _ _ => ⟨c, hc, hun⟩)
  · intro δ hδ
    obtain ⟨T, I, D, M, X, hs⟩ := h.stored hd δ hδ
    refine ⟨T, I, D, M, X, hs.setCompaction ?_ ?_⟩
    · intro c' hc' _
      rw [← Option.some.inj (hc.symm.trans hc'), hready]
    · intro c' hc' _
      obtain rfl := Option.some.inj hc'
      exact hs.outputFiles c hc hun

/-- The steps after the publication change nothing that anything else reads. -/
theorem Inv.setCleanup (h : Inv F ρ σ db st) (hc : db.compaction = some c)
    (hpub : c.versionPublished = true) {c' : CompactionState} (hpub' : c'.versionPublished = true)
    (hin : c'.inputFileNumbers = c.inputFileNumbers) (hpaths : c'.cleanupPaths = c.cleanupPaths) :
    Inv F ρ σ { db with compaction := some c' } st := by
  have hno : ∀ d, some c' = some d → d.versionPublished ≠ false := by
    intro d hd
    rw [← Option.some.inj hd, hpub']
    simp
  refine h.setMembers (h.scene_of rfl rfl rfl rfl) rfl ?_ (fun hord => ?_)
    (fun w hw => ⟨rfl, w, hw, rfl⟩) (fun hd => ?_) (fun ht => (h.traced ht).current)
  · refine h.contents.setCompaction hc hin (fun hun => absurd hun (hno c' rfl)) ?_
    exact fun _ => ⟨hpub, hpaths⟩
  · exact (h.size hord).setCompaction (fun d hd hun => absurd hun (hno d hd))
  · intro δ hδ
    obtain ⟨T, I, D, M, X, hs⟩ := h.stored hd δ hδ
    refine ⟨T, I, D, M, X, hs.setCompaction ?_ (fun d hd hun => absurd hun (hno d hd))⟩
    intro d hd hun
    rw [← Option.some.inj (hc.symm.trans hd), hpub] at hun
    cases hun

theorem Inv.dropCompaction (h : Inv F ρ σ db st) (hc : db.compaction = some c)
    (hpub : c.versionPublished = true) (stats : CompactionStats) :
    Inv F ρ σ { db with lastCompactionStatistics := stats, compaction := none } st := by
  refine h.setMembers (h.scene_of rfl rfl rfl rfl) rfl h.contents.dropCompaction
    (fun hord => ?_) (fun w hw => ⟨rfl, w, hw, rfl⟩) (fun hd => ?_)
    (fun ht => (h.traced ht).current)
  · exact (h.size hord).setCompaction (fun d hd => (by cases hd))
  · intro δ hδ
    obtain ⟨T, I, D, M, X, hs⟩ := h.stored hd δ hδ
    refine ⟨T, I, D, M, X, hs.setCompaction ?_ (fun d hd => (by cases hd))⟩
    intro d hd hun
    rw [← Option.some.inj (hc.symm.trans hd), hpub] at hun
    cases hun

/-! ## Publication -/

/-- The pending state once its candidate is published; with outputs the log goes too. -/
def CompactionState.publish (c : CompactionState) (generation : Nat) : CompactionState :=
  if c.outputMemtables.isEmpty then { c with versionPublished := true }
  else { c with
    versionPublished := true
    cleanupPaths := c.cleanupPaths ++ [.wal generation]
    walGenerationAdvanced := true }

/-- What publishing the candidate makes of the members. -/
def Database.compacted (db : Database) (c : CompactionState) : Database :=
  { db with
    tables := liveTables c db.tables
    version := c.candidate
    wal := if c.outputMemtables.isEmpty then db.wal else none
    mutableGeneration :=
      if c.outputMemtables.isEmpty then db.mutableGeneration else c.candidate.nextFileNumber
    compaction := some (c.publish db.mutableGeneration) }

theorem CompactionState.publish_published (c : CompactionState) (g : Nat) :
    (c.publish g).versionPublished = true := by
  unfold publish
  split <;> rfl

theorem CompactionState.publish_outputs (c : CompactionState) (g : Nat) :
    (c.publish g).outputMemtables = c.outputMemtables ∧
      (c.publish g).publishedOutputs = c.publishedOutputs ∧
      (c.publish g).candidateReady = c.candidateReady := by
  unfold publish
  split <;> exact ⟨rfl, rfl, rfl⟩

theorem CompactionState.mem_publish {g : Nat} {f : FileName}
    (h : f ∈ (c.publish g).cleanupPaths) :
    f ∈ c.cleanupPaths ∨ c.outputMemtables ≠ [] ∧ f = .wal g := by
  unfold publish at h
  split at h
  · exact Or.inl h
  · rename_i hne
    rcases List.mem_append.mp h with h | h
    · exact Or.inl h
    · exact Or.inr ⟨by simpa using hne, List.mem_singleton.mp h⟩

theorem CompactionState.publish_advanced {g : Nat}
    (h : (c.publish g).walGenerationAdvanced = true) :
    c.walGenerationAdvanced = true ∨ c.outputMemtables ≠ [] := by
  unfold publish at h
  split at h
  · exact Or.inl h
  · rename_i hne
    exact Or.inr (by simpa using hne)

/-- The candidate names no input. -/
theorem ContentsInv.obsolete_input {x : Contents} (h : ContentsInv ρ x) (hpl : ρ.planned)
    (hc : x.compaction = some c) (hun : c.versionPublished = false)
    (hready : c.candidateReady = true) {n : Nat} (hn : n ∈ c.inputFileNumbers) :
    c.candidate.Obsolete (.sst n) := by
  obtain ⟨hw, he⟩ := h.written_candidate hpl hc hun hready
  obtain ⟨hnext, -⟩ := h.candidate_fields hpl hc hun hready
  obtain ⟨range, -, hnum⟩ := hw.numbers
  have hlt : n < x.version.nextFileNumber := by
    rw [hnum] at hn
    obtain ⟨vt, hvt, rfl⟩ := List.mem_map.mp hn
    have hmem := List.mem_of_mem_filter hvt
    exact (VersionTable.wellFormed_iff.mp (h.version.tables vt hmem)).2.2.1
  refine ⟨by omega, fun t ht hgen => ?_⟩
  rw [he] at ht
  rcases mem_compactedTables.mp (mem_sortTables.mp ht) with ⟨-, hkept⟩ | ⟨r, hr, rfl⟩
  · exact hkept (hgen ▸ hn)
  · have hge := (hw.outputs.numbers.2 r hr).1
    have hgen' : r.generation = n := hgen
    omega

theorem Inv.obsolete_cleanup (h : Inv F ρ σ db st) (hc : db.compaction = some c)
    (hun : c.versionPublished = false) (hready : c.candidateReady = true) (hd : ρ.durable) :
    ∀ f ∈ (c.publish db.mutableGeneration).cleanupPaths, c.candidate.Obsolete f := by
  obtain ⟨hord, hpl⟩ := ρ.durable_imp hd
  intro f hf
  rcases CompactionState.mem_publish hf with hf | ⟨hne, rfl⟩
  · rw [(h.contents.pending c hc hun).paths hd] at hf
    obtain ⟨n, hn, rfl⟩ := List.mem_map.mp hf
    exact h.contents.obsolete_input hpl hc hun hready hn
  · obtain ⟨T, I, D, M, X, hs⟩ := (h.stored hd).current
    obtain ⟨-, -, -, hgen⟩ := hs.planned_empty h.contents hpl hc hun
    obtain ⟨hnext, -⟩ := h.contents.candidate_fields hpl hc hun hready
    have hpos : 0 < c.outputMemtables.length := List.length_pos_iff.mpr hne
    have hgen' : db.version.nextFileNumber = db.mutableGeneration := hgen
    have hnext' : c.candidate.nextFileNumber =
      db.version.nextFileNumber + c.outputMemtables.length := hnext
    show db.mutableGeneration < c.candidate.nextFileNumber
    omega

theorem Inv.compacted (h : Inv F ρ σ db st) (hc : db.compaction = some c)
    (hun : c.versionPublished = false) (hready : c.candidateReady = true) {b : Bytes}
    (hb : F.encodeManifest db.format c.candidate = .ok b) (hpin : Pinned .manifest b st)
    (hsync : SyncedManifest b st.trace) : Inv F ρ σ (db.compacted c) st := by
  have hpub := c.publish_published db.mutableGeneration
  refine h.setMembers ?_ rfl (h.contents.compacted hc hun hready hpub
    (h.obsolete_cleanup hc hun hready)) (fun hord => ?_) ?_ (fun hd => ?_) (fun _ => ⟨b, hb, hsync⟩)
  · exact h.scene_of rfl (Contents.view_compacted h.contents hc hun hready) rfl rfl
  · -- a Mutable that was filled beside the compaction is carried over without its log
    obtain ⟨carry, h1, h2, h3⟩ := h.size hord
    have hzero := h2 ⟨c, hc, hun⟩
    have hno : ∀ y : Contents, y.compaction = some (c.publish db.mutableGeneration) →
        ¬ y.Waiting := by
      rintro y hy ⟨d, hd, hdun⟩
      rw [← Option.some.inj (hy.symm.trans hd), hpub] at hdun
      cases hdun
    have hbound : walLength db.wal st.disk ≤ maximumFileSize := by
      unfold walLength
      split
      · exact Nat.zero_le _
      · exact h.wf.small _ _ (Volatile.current_mem_states _)
    refine ⟨walLength db.wal st.disk, hbound, fun hw => absurd hw (hno _ rfl), ?_⟩
    have h3' : db.mutableTable.approximateDataSize ≤ carry + walLength db.wal st.disk := h3
    show db.mutableTable.approximateDataSize ≤ _
    omega
  · intro w hw
    by_cases hnil : c.outputMemtables.isEmpty = true
    · refine ⟨if_pos hnil, w, ?_, rfl⟩
      exact (if_pos hnil).symm.trans hw
    · cases (if_neg hnil).symm.trans hw
  · intro δ hδ
    obtain ⟨T, I, D, M, X, hs⟩ := h.stored hd δ hδ
    exact hs.compacted_contents h.contents (ρ.durable_imp hd).2 hc hun hready hpub
      ⟨b, hb, hpin.image_eq rfl δ hδ⟩

/-! ## The parts of a compaction -/

/-- A part has failed, and of itself only for the given causes. -/
def Halted (F : StorageFormat) (ρ : Regime) (σ : Scene) (q : Prop) (C : Status → Prop)
    (e : Status) (d : Database) (st : Store) : Prop :=
  Failed F ρ σ q e d st ∧ (ρ.planned → Fault q e ∨ C e)

theorem Halted.mono {C C' : Status → Prop} {e : Status} {d : Database}
    (h : Halted F ρ σ q C e d st) (hC : ρ.planned → ∀ e, C e → C' e) : Halted F ρ σ q C' e d st :=
  ⟨h.1, fun hpl => (h.2 hpl).imp id (hC hpl e)⟩

/-- Only the environment has failed. -/
theorem Halted.of_fault {C : Status → Prop} {e : Status} {d : Database}
    (h : Steady F ρ σ d st) (he : Fault q e) : Halted F ρ σ q C e d st :=
  ⟨⟨h, fun _ => Or.inl he⟩, fun _ => Or.inl he⟩

/-- A part that runs on the pending state. -/
theorem Acts.withCompaction {K : Store → Prop} {R : Store → Prop} {f : CompactionState → Act Unit}
    {Q : Unit → Database → Store → Prop} {E : Status → Database → Store → Prop}
    (hc : db.compaction = some c) (h : Acts q K (At db R) (f c) Q E) :
    Acts q K (At db R) (MiniKV.withCompaction f) Q E := by
  refine Acts.getDb_bind ?_
  rw [hc]
  exact h

/-- Without a pending state there is nothing to do. -/
theorem Acts.skipCompaction {K : Store → Prop} {R : Store → Prop} {f : CompactionState → Act Unit}
    {E : Status → Database → Store → Prop} (hc : db.compaction = none) :
    Acts q K (At db R) (MiniKV.withCompaction f) (fun _ => At db R) E := by
  refine Acts.getDb_bind ?_
  rw [hc]
  exact Acts.pure (fun st h => ⟨rfl, h⟩)

/-- No live table has the number of an output that is not yet there. -/
theorem ContentsInv.unused_output {x : Contents} (h : ContentsInv ρ x) (hpl : ρ.planned)
    (hc : x.compaction = some c) (hun : c.versionPublished = false)
    (hnil : c.publishedOutputs = []) {g : Nat} (hg : c.firstOutputFileNumber ≤ g) :
    x.Unused g := by
  have hp := h.pending c hc hun
  obtain ⟨hplan, himm, -⟩ := hp.planned hpl
  refine ⟨fun u hu => ?_, fun imm u himm' => ?_, fun c' hc' _ => ?_⟩
  · obtain ⟨vt, hvt, he⟩ := hp.aligned.exists_table hu
    have hlt := (VersionTable.wellFormed_iff.mp (h.version.tables vt hvt)).2.2.1
    rw [VersionTable.generation, he, ← hplan.first] at hlt
    exact (hlt.trans_le hg).ne
  · rw [himm] at himm'
    cases himm'
  · rw [← Option.some.inj (hc.symm.trans hc'), hnil]
    exact fun t ht => (by cases ht)

/-- A change of the pending state that keeps its stage. -/
theorem Database.Tidy.setCompaction (h : db.Tidy ρ) (hc : db.compaction = some c)
    {c' : CompactionState} (hadv : c'.walGenerationAdvanced = c.walGenerationAdvanced)
    (hpub : c'.versionPublished = c.versionPublished)
    (hready : c'.versionPublished = true → c'.candidateReady = true ∧
      (c'.outputMemtables = [] ∨ c'.publishedOutputs ≠ []))
    (hpaths : c'.cleanupPaths = c.cleanupPaths) :
    Database.Tidy ρ { db with compaction := some c' } := by
  constructor
  case advanced =>
    intro hpl d hd hda
    obtain rfl := Option.some.inj hd
    rw [hpub]
    exact h.advanced hpl c hc (hadv ▸ hda)
  case detached =>
    intro hs hw
    refine (h.detached hs hw).imp id (fun ⟨d, hd, hda⟩ => ⟨c', rfl, ?_⟩)
    rw [hadv, Option.some.inj (hc.symm.trans hd), hda]
  case solo => exact h.solo
  case writer => exact h.writer
  case published =>
    intro d hd hdp
    obtain rfl := Option.some.inj hd
    exact hready hdp
  case removable =>
    intro d hd
    obtain rfl := Option.some.inj hd
    rw [hpaths]
    exact h.removable c hc

theorem compactionOutputs_acts (hF : F.Lawful) (hc : db.compaction = some c) :
    Acts q (Remains F σ.format ρ) (At db (Steady F ρ σ db)) (compactionOutputs F c)
      (fun _ d st => Steady F ρ σ d st ∧ ∃ outputs,
        d = { db with compaction := some { c with publishedOutputs := outputs } } ∧
          (c.versionPublished = false →
            OutputReaders db.format c.firstOutputFileNumber c.outputMemtables outputs ∧
              (c.publishedOutputs = [] →
                OutputSizes F db.format c.firstOutputFileNumber c.outputMemtables outputs)))
      (Halted F ρ σ q (OutputsRefused F db.format c.firstOutputFileNumber c.outputMemtables)) := by
  refine Acts.know (fun _ h => h.tidy) (fun htidy => ?_)
  refine Acts.know (fun _ h => h.inv.contents) (fun hcontents => ?_)
  refine Acts.know (fun _ h => h.inv.format_eq) (fun hfmt => ?_)
  refine Acts.ite (fun hskip => ?_) (fun hrun => ?_)
  · refine Acts.pure (fun st h => ⟨h, c.publishedOutputs, ?_, fun hun => ?_⟩)
    · exact (Database.set_compaction hc).symm
    · have hnone : c.publishedOutputs = [] → c.outputMemtables = [] := by
        intro hnil
        rcases hskip with hms | hps
        · exact List.isEmpty_iff.mp hms
        · rw [hnil] at hps
          cases hps
      refine ⟨?_, fun hnil => ?_⟩
      · rcases (hcontents.pending c hc hun).outputs with hnil | hout
        · rw [hnone hnil, hnil]
          exact .nil _
        · exact hout
      · rw [hnone hnil, hnil]
        exact ⟨[], rfl, rfl⟩
  · have hms : c.outputMemtables ≠ [] := fun he => hrun (Or.inl (by rw [he]; rfl))
    have hnil : c.publishedOutputs = [] := by
      by_contra hne
      exact hrun (Or.inr (by simpa using hne))
    have hun : c.versionPublished = false := by
      by_contra hpub
      rcases (htidy.published c hc (by simpa using hpub)).2 with he | he
      · exact hms he
      · exact he hnil
    have hp := hcontents.pending c hc hun
    have hready : c.candidateReady = false := by
      by_contra hr
      have hlen := (hp.ready (by simpa using hr)).outputs.length_eq
      rw [hnil] at hlen
      exact hms (List.length_eq_zero_iff.mp hlen.symm)
    refine Acts.getDb_bind ?_
    refine Acts.weaken (fun st => Inv F ρ σ db st ∧ True) ?_ (fun st h => ⟨h.inv, trivial⟩)
    refine Acts.io_bind (publishCompactionTables_spec hF Inv.stable hp.first_ne hms hp.room
      (by simp [FileName.isTemporary]) ?_) (fun _ h => h.remains) ?_ (fun outputs => ?_)
    · intro st i g m b hge _ _ h ht
      exact h.renamed_table ht
        (fun hd => hcontents.unused_output (ρ.durable_imp hd).2 hc hun hnil hge)
    · intro e st h he
      exact ⟨⟨⟨h, htidy⟩, fun _ => he.imp id (fun he => .outputs hc he)⟩, fun _ => he⟩
    · refine Acts.modifyDb (fun st h => ?_)
      obtain ⟨h, hout, hsizes, hpin⟩ := h
      rw [hc]
      refine ⟨⟨?_, ?_⟩, outputs, rfl, fun _ => ⟨hout, fun _ => hsizes⟩⟩
      · rw [hfmt] at hpin
        exact h.setOutputs hc hun hready hout hpin
      · refine htidy.setCompaction hc rfl rfl (fun hpub => ?_) rfl
        rw [show c.versionPublished = true from hpub] at hun
        cases hun

theorem addOutputBytes_error {bytes : Nat} {ts : List SSTableReader} {e : Status}
    (h : addOutputBytes bytes ts = .error e) :
    e = .invalidArgument "compaction byte count overflows" ∧
      maxUInt64 < bytes + (ts.map (fun t => t.metadata.fileSize)).sum := by
  induction ts generalizing bytes with
  | nil => cases h
  | cons t ts ih =>
    unfold addOutputBytes at h
    rw [List.map_cons, List.sum_cons]
    split at h
    · exact ⟨(Except.error.inj h).symm, by omega⟩
    · obtain ⟨he, hlt⟩ := ih h
      exact ⟨he, by omega⟩

theorem compactionCandidate_acts (hc : db.compaction = some c)
    (hout : c.versionPublished = false →
      OutputReaders db.format c.firstOutputFileNumber c.outputMemtables c.publishedOutputs) :
    Acts q (Remains F σ.format ρ) (At db (Steady F ρ σ db)) (compactionCandidate c)
      (fun _ d st => Steady F ρ σ d st ∧ ∃ v stats, d = { db with compaction := some { c with
        candidate := v, candidateReady := true, stats := stats } })
      (Halted F ρ σ q (fun e => c.candidateReady = false ∧
        (addOutputBytes c.stats.outputBytes c.publishedOutputs = .error e ∨
          db.version.id = maxUInt64))) := by
  refine Acts.know (fun _ h => h.tidy) (fun htidy => ?_)
  refine Acts.know (fun _ h => h.inv.contents) (fun hcontents => ?_)
  refine Acts.ite (fun hready => ?_) (fun hready => ?_)
  · refine Acts.pure (fun st h => ⟨h, c.candidate, c.stats, ?_⟩)
    rw [← hready]
    exact (Database.set_compaction hc).symm
  · have hun : c.versionPublished = false := by
      by_contra hpub
      exact hready (htidy.published c hc (by simpa using hpub)).1
    refine Acts.getDb_bind ?_
    have hnew : c.candidateReady = false := by simpa using hready
    refine Acts.ofExcept_bind (fun bytes _ => ?_) (fun e he st h => ?_)
    · refine Acts.ofExcept_bind (fun v happly => ?_) (fun e he st h => ?_)
      · refine Acts.modifyDb (fun st h => ?_)
        rw [hc]
        refine ⟨⟨h.inv.setCandidate hc hun hnew (hout hun) happly, ?_⟩, v, _, rfl⟩
        refine htidy.setCompaction hc rfl rfl (fun hpub => ?_) rfl
        rw [show c.versionPublished = true from hpub] at hun
        cases hun
      · -- nothing was written beside the compaction, so only ids can be missing
        have hid : ρ.planned → db.version.id = maxUInt64 := by
          intro hpl
          by_contra hid
          have hw := hcontents.written hpl hc hun (hout hun)
          have ha := (hcontents.pending c hc hun).aligned
          cases he.symm.trans (hw.apply_eq (hcontents.tablesInv ha) hid)
        refine ⟨⟨h, fun hpl => ?_⟩, fun hpl => Or.inr ⟨hnew, Or.inr (hid hpl)⟩⟩
        have hstatus := he.symm.trans (Version.apply_exhausted hcontents.version (hid hpl) _)
        exact Or.inr (.versionId (hid hpl) (Except.error.inj hstatus))
    · exact ⟨⟨h, fun _ => Or.inr (.bytes (addOutputBytes_error he).1)⟩,
        fun _ => Or.inr ⟨hnew, Or.inl he⟩⟩

theorem Database.Tidy.compacted (h : db.Tidy ρ) {x : Contents} (hinv : ContentsInv ρ x)
    (hx : db.contents = x) (hc : db.compaction = some c) (hun : c.versionPublished = false)
    (hready : c.candidateReady = true) : (db.compacted c).Tidy ρ := by
  subst hx
  have hp := hinv.pending c hc hun
  obtain ⟨hms, hps, hrd⟩ := c.publish_outputs db.mutableGeneration
  have hnew : ∀ d, (db.compacted c).compaction = some d → d = c.publish db.mutableGeneration :=
    fun d hd => (Option.some.inj hd).symm
  constructor
  case advanced =>
    intro hpl d hd hadv
    rw [hnew d hd] at hadv ⊢
    rcases CompactionState.publish_advanced hadv with hadv | hne
    · rw [(h.advanced hpl c hc hadv).1] at hun
      cases hun
    · exact ⟨c.publish_published _, if_neg (by simpa using hne), (hp.planned hpl).2.1⟩
  case detached =>
    intro hs hw
    by_cases hnil : c.outputMemtables.isEmpty = true
    · refine (h.detached hs ((if_pos hnil).symm.trans hw)).imp id (fun ⟨d, hd, hda⟩ => ?_)
      refine ⟨_, rfl, ?_⟩
      rw [CompactionState.publish, if_pos hnil]
      show c.walGenerationAdvanced = true
      rw [Option.some.inj (hc.symm.trans hd), hda]
    · refine Or.inr ⟨_, rfl, ?_⟩
      rw [CompactionState.publish, if_neg hnil]
  case solo =>
    intro hs hne
    by_cases hnil : c.outputMemtables.isEmpty = true
    · exact (if_pos hnil).trans (h.solo hs hne)
    · exact if_neg hnil
  case writer =>
    intro w hw
    by_cases hnil : c.outputMemtables.isEmpty = true
    · exact h.writer w ((if_pos hnil).symm.trans hw)
    · cases (if_neg hnil).symm.trans hw
  case published =>
    intro d hd _
    rw [hnew d hd, hms, hps, hrd]
    refine ⟨hready, ?_⟩
    by_cases hnil : c.outputMemtables = []
    · exact Or.inl hnil
    · refine Or.inr (fun he => hnil ?_)
      have hlen := (hp.ready hready).outputs.length_eq
      rw [he] at hlen
      exact List.length_eq_zero_iff.mp hlen.symm
  case removable =>
    intro d hd f hf
    rw [hnew d hd] at hf
    rcases CompactionState.mem_publish hf with hf | ⟨-, rfl⟩
    · exact h.removable c hc f hf
    · simp

theorem compactionVersion_acts (hF : F.Lawful) (hc : db.compaction = some c)
    (hready : c.candidateReady = true) :
    Acts q (Remains F σ.format ρ) (At db (Steady F ρ σ db)) (compactionVersion F c)
      (fun _ d st => Steady F ρ σ d st ∧ ((c.versionPublished = true ∧ d = db) ∨
        (c.versionPublished = false ∧ d = db.compacted c)))
      (Halted F ρ σ q (fun e => c.versionPublished = false ∧
        F.encodeManifest db.format c.candidate = .error e)) := by
  refine Acts.know (fun _ h => h.tidy) (fun htidy => ?_)
  refine Acts.know (fun _ h => h.inv.contents) (fun hcontents => ?_)
  refine Acts.ite (fun hpub => ?_) (fun hpub => ?_)
  · exact Acts.pure (fun st h => ⟨h, Or.inl ⟨hpub, rfl⟩⟩)
  · have hun : c.versionPublished = false := by simpa using hpub
    have hcand : Candidate db.contents c.candidate (liveTables c db.tables) :=
      .compaction hc hun hready
    have hinv := (hcontents.pending c hc hun).ready hready
    refine Acts.getDb_bind ?_
    refine Acts.weaken (fun st => Inv F ρ σ db st ∧ True) ?_ (fun st h => ⟨h.inv, trivial⟩)
    refine Acts.io_bind (publishManifest_spec hF Inv.stable (by simp [FileName.isTemporary]) ?_)
      (fun _ h => h.remains) ?_ (fun _ => ?_)
    · intro st i b hb h ht
      exact h.renamed_manifest hF hb ht
        (fun hord => ⟨hinv.separate hord, hinv.sorted, hinv.word hord⟩) (fun _ => ⟨_, hcand⟩)
    · intro e st h he
      exact ⟨⟨⟨h, htidy⟩, fun _ => he.imp id (fun he => .manifest hcand he)⟩,
        fun _ => he.imp id (fun he => ⟨hun, he⟩)⟩
    · have hpost : ∀ st, Inv F ρ σ db st ∧ (∃ b, F.encodeManifest db.format c.candidate = .ok b ∧
          Pinned .manifest b st ∧ SyncedManifest b st.trace) →
          Steady F ρ σ (db.compacted c) st := by
        rintro st ⟨h, b, hb, hpin, hsync⟩
        exact ⟨h.compacted hc hun hready hb hpin hsync, htidy.compacted hcontents rfl hc hun hready⟩
      refine Acts.modifyDb_bind (Acts.ite (fun hnil => ?_) (fun hne => ?_))
      · have hd : db.compacted c = { db with
            tables := liveTables c db.tables
            version := c.candidate
            compaction := some { c with versionPublished := true } } := by
          simp only [Database.compacted, CompactionState.publish, if_pos hnil]
        exact Acts.pure (fun st h => ⟨hd ▸ hpost st h, Or.inr ⟨hun, hd.symm⟩⟩)
      · have hd : db.compacted c = { db with
            tables := liveTables c db.tables
            version := c.candidate
            wal := none
            mutableGeneration := c.candidate.nextFileNumber
            compaction := some { c with
              versionPublished := true
              cleanupPaths := c.cleanupPaths ++ [.wal db.mutableGeneration]
              walGenerationAdvanced := true } } := by
          simp only [Database.compacted, CompactionState.publish, if_neg hne]
        exact Acts.modifyDb (fun st h => ⟨hd ▸ hpost st h, Or.inr ⟨hun, hd.symm⟩⟩)

theorem compactionCleanup_acts (hF : F.Lawful) {fs : List FileName} (hc : db.compaction = some c)
    (hpub : c.versionPublished = true) (hfs : ∀ f ∈ fs, f ∈ c.cleanupPaths) :
    Acts q (Remains F σ.format ρ) (At db (Steady F ρ σ db)) (compactionCleanup fs)
      (fun _ d st => Steady F ρ σ d st ∧
        ∃ k, d = { db with compaction := some { c with cleanupIndex := k } })
      (Halted F ρ σ q (fun _ => False)) := by
  induction fs generalizing db c with
  | nil =>
    refine Acts.pure (fun st h => ⟨h, c.cleanupIndex, ?_⟩)
    exact (Database.set_compaction hc).symm
  | cons f fs ih =>
    refine Acts.know (fun _ h => h.tidy) (fun htidy => ?_)
    refine Acts.know (fun _ h => h.inv.contents) (fun hcontents => ?_)
    have hf := hfs f List.mem_cons_self
    refine Acts.weaken (fun st => Inv F ρ σ db st ∧ True) ?_ (fun st h => ⟨h.inv, trivial⟩)
    refine Acts.io_bind (removeFile_inv hF (htidy.removable c hc f hf) (fun hd =>
      hcontents.cleanup hd c hc hpub f hf)) (fun _ h => h.remains)
      (fun e st h he => .of_fault ⟨h, htidy⟩ he) (fun _ => ?_)
    refine Acts.modifyDb_bind ?_
    rw [hc]
    refine Acts.weaken _ (@ih _ { c with cleanupIndex := c.cleanupIndex + 1 } rfl hpub
      (fun g hg => hfs g (List.mem_cons_of_mem _ hg))) (fun st h => ⟨?_, ?_⟩)
    · exact h.1.setCleanup hc hpub hpub rfl rfl
    · exact htidy.setCompaction hc rfl rfl (fun _ => htidy.published c hc hpub) rfl

theorem compactionSync_acts (hc : db.compaction = some c) (hpub : c.versionPublished = true) :
    Acts q (Remains F σ.format ρ) (At db (Steady F ρ σ db)) (compactionSync c)
      (fun _ d st => Steady F ρ σ d st ∧
        ∃ b, d = { db with compaction := some { c with cleanupSynced := b } })
      (Halted F ρ σ q (fun _ => False)) := by
  refine Acts.know (fun _ h => h.tidy) (fun htidy => ?_)
  refine Acts.ite (fun _ => ?_) (fun _ => ?_)
  · refine Acts.pure (fun st h => ⟨h, c.cleanupSynced, ?_⟩)
    exact (Database.set_compaction hc).symm
  · refine Acts.weaken (fun st => Inv F ρ σ db st ∧ True) ?_ (fun st h => ⟨h.inv, trivial⟩)
    refine Acts.io_bind (syncDirectory_spec Inv.stable (Q := fun _ _ => True)
      (fun _ _ _ => trivial)) (fun _ h => h.remains)
      (fun e st h he => .of_fault ⟨h, htidy⟩ he) (fun _ => ?_)
    refine Acts.modifyDb (fun st h => ?_)
    rw [hc]
    refine ⟨⟨h.1.setCleanup hc hpub hpub rfl rfl, ?_⟩, true, rfl⟩
    exact htidy.setCompaction hc rfl rfl (fun _ => htidy.published c hc hpub) rfl

/-- The end of `ContinueCompaction`, from the log on. -/
def compactionEnd : Act Unit := do
  withCompaction (fun c => if c.walGenerationAdvanced then openMutableWal else pure ())
  modifyDb (fun db => match db.compaction with
    | none => db
    | some c => { db with
        lastCompactionStatistics := { c.stats with
          bytesReclaimed := c.stats.inputBytes - c.stats.outputBytes }
        compaction := none })

/-- Once its pending state is dropped, a database has a log or an Immutable. -/
theorem Database.Tidy.dropCompaction (h : db.Tidy ρ) (hc : db.compaction = some c)
    {w : Option WalWriter} (hw : w = none → c.walGenerationAdvanced = false ∧ db.wal = none)
    (hw' : w = db.wal ∨ c.walGenerationAdvanced = true)
    (hwriter : ∀ w', w = some w' → w'.status = .ok ∨ w'.status.Outer) (stats : CompactionStats) :
    Database.Tidy ρ { db with
      wal := w, lastCompactionStatistics := stats, compaction := none } := by
  refine ⟨fun _ d hd => (by cases hd), fun hs hnone => ?_, fun hs hne => ?_, hwriter,
    fun d hd => (by cases hd), fun d hd => (by cases hd)⟩
  · obtain ⟨hadv, hwal⟩ := hw hnone
    refine (h.detached hs hwal).imp id (fun ⟨d, hd, hda⟩ => ?_)
    rw [← Option.some.inj (hc.symm.trans hd), hadv] at hda
    cases hda
  · rcases hw' with rfl | hadv
    · exact h.solo hs hne
    · exact absurd (h.advanced (ρ.single_imp hs) c hc hadv).2.2 hne

theorem compactionEnd_acts (hc : db.compaction = some c) (hpub : c.versionPublished = true) :
    Acts q (Remains F σ.format ρ) (At db (Steady F ρ σ db)) compactionEnd
      (fun _ d st => Steady F ρ σ d st ∧ ∃ w stats, d = { db with
        wal := w, lastCompactionStatistics := stats, compaction := none })
      (Halted F ρ σ q (fun _ => False)) := by
  refine Acts.know (fun _ h => h.tidy) (fun htidy => ?_)
  -- the log is opened if publishing took the old one away
  refine Acts.bind (S := fun _ d st => Inv F ρ σ d st ∧ ∃ w, d = { db with wal := w } ∧
    (w = none → c.walGenerationAdvanced = false ∧ db.wal = none) ∧
    (w = db.wal ∨ c.walGenerationAdvanced = true) ∧
    ∀ w', w = some w' → w'.status = .ok ∨ w'.status.Outer) ?_ (fun _ => Acts.fix (fun d => ?_))
  · refine Acts.withCompaction hc (Acts.ite (fun hadv => ?_) (fun hadv => ?_))
    · refine Acts.weaken _ (openMutableWal_acts.conseq (fun _ _ h => h) ?_ ?_)
        (fun st h => ⟨h.inv, fun hw hd => h.inv.sealed (fun imm himm => ?_) hw hd⟩)
      · rintro _ d st ⟨h, w, rfl, hstatus⟩
        refine ⟨h, some w, rfl, fun hw => (by cases hw), Or.inr hadv, fun w' hw' => ?_⟩
        rw [← Option.some.inj hw']
        exact hstatus.elim (htidy.writer w) Or.inl
      · rintro e d st ⟨rfl, h, he⟩
        exact .of_fault ⟨h, htidy⟩ he
      · have hnone := (htidy.advanced (ρ.durable_imp hd).2 c hc hadv).2.2
        rw [himm] at hnone
        cases hnone
    · exact Acts.pure (fun st h => ⟨h.inv, db.wal, rfl, fun hw => ⟨by simpa using hadv, hw⟩,
        Or.inl rfl, htidy.writer⟩)
  · refine Acts.know (fun _ h => h.2) (fun ⟨w, hd, hw, hw', hwriter⟩ => ?_)
    subst hd
    refine Acts.modifyDb (fun st h => ?_)
    simp only [hc]
    exact ⟨⟨h.1.dropCompaction hc hpub _, htidy.dropCompaction hc hw hw' hwriter _⟩, w, _, rfl⟩

/-! ## The whole of it -/

/-- What a compaction that has come to its end makes of the members. -/
structure CompactDone (ρ : Regime) (db d : Database) : Prop where
  compaction : d.compaction = none
  idle : db.compaction = none → d = db
  published : ∀ c, db.compaction = some c → c.versionPublished = true →
    d.version = db.version ∧ d.tables = db.tables
  replaced : ρ.planned → ∀ c, db.compaction = some c → c.versionPublished = false →
    ∃ outputs, Written db.format db.version db.tables { c with publishedOutputs := outputs } ∧
      db.version.apply db.format (compactionEdit { c with publishedOutputs := outputs }) =
        .ok d.version ∧
      d.tables = liveTables { c with publishedOutputs := outputs } db.tables
  others : ∃ ts v g w stats, d = { db with
    tables := ts
    version := v
    mutableGeneration := g
    wal := w
    lastCompactionStatistics := stats
    compaction := none }

theorem CompactDone.immutable_eq {d : Database} (h : CompactDone ρ db d) :
    d.immutable = db.immutable := by
  obtain ⟨ts, v, g, w, stats, rfl⟩ := h.others
  rfl

theorem CompactDone.mutableTable_eq {d : Database} (h : CompactDone ρ db d) :
    d.mutableTable = db.mutableTable := by
  obtain ⟨ts, v, g, w, stats, rfl⟩ := h.others
  rfl

/-- The part of `ContinueCompaction` after the publication. -/
def compactionRest : Act Unit := do
  withCompaction (fun c => compactionCleanup (c.cleanupPaths.drop c.cleanupIndex))
  withCompaction compactionSync
  compactionEnd

theorem continueCompaction_eq (F : StorageFormat) : continueCompaction F = (do
    withCompaction (compactionOutputs F)
    withCompaction compactionCandidate
    withCompaction (compactionVersion F)
    compactionRest) := rfl

theorem compactionRest_acts (hF : F.Lawful) (hc : db.compaction = some c)
    (hpub : c.versionPublished = true) :
    Acts q (Remains F σ.format ρ) (At db (Steady F ρ σ db)) compactionRest
      (fun _ d st => Steady F ρ σ d st ∧ ∃ w stats, d = { db with
        wal := w, lastCompactionStatistics := stats, compaction := none })
      (Halted F ρ σ q (fun _ => False)) := by
  refine Acts.bind (Acts.withCompaction hc (compactionCleanup_acts hF hc hpub
    (fun f hf => List.mem_of_mem_drop hf))) (fun _ => Acts.fix (fun d => ?_))
  refine Acts.know (fun _ h => h.2) (fun ⟨k, hd⟩ => ?_)
  subst hd
  refine Acts.weaken _ ?_ (fun st h => h.1)
  refine Acts.bind (Acts.withCompaction rfl (compactionSync_acts rfl hpub))
    (fun _ => Acts.fix (fun d => ?_))
  refine Acts.know (fun _ h => h.2) (fun ⟨b, hd⟩ => ?_)
  subst hd
  exact Acts.weaken _ (compactionEnd_acts rfl hpub) (fun st h => h.1)

/-- Why a compaction that has written nothing yet stops when the environment does not fail. -/
inductive Blocked (F : StorageFormat) (db : Database) (c : CompactionState) (e : Status) : Prop
  | outputs (refused : OutputsRefused F db.format c.firstOutputFileNumber c.outputMemtables e)
  | bytes {ts : List SSTableReader}
      (sizes : OutputSizes F db.format c.firstOutputFileNumber c.outputMemtables ts)
      (refused : addOutputBytes c.stats.outputBytes ts = .error e)
  | id (h : db.version.id = maxUInt64)
  | manifest {ts : List SSTableReader} {v : Version}
      (written : Written db.format db.version db.tables { c with publishedOutputs := ts })
      (apply : db.version.apply db.format (compactionEdit { c with publishedOutputs := ts }) = .ok v)
      (refused : F.encodeManifest db.format v = .error e)

/-- A plan of which nothing has been carried out. -/
structure CompactionState.Fresh (c : CompactionState) : Prop where
  published : c.publishedOutputs = []
  candidateReady : c.candidateReady = false
  versionPublished : c.versionPublished = false

theorem continueCompaction_run (hF : F.Lawful) :
    Acts q (Remains F σ.format ρ) (At db (Steady F ρ σ db)) (continueCompaction F)
      (fun _ d st => Steady F ρ σ d st ∧ CompactDone ρ db d)
      (Halted F ρ σ q (fun e => ∀ c, db.compaction = some c → c.Fresh → Blocked F db c e)) := by
  rw [continueCompaction_eq]
  cases hc : db.compaction with
  | none =>
    refine Acts.bind (Acts.skipCompaction hc) (fun _ => ?_)
    refine Acts.bind (Acts.skipCompaction hc) (fun _ => ?_)
    refine Acts.bind (Acts.skipCompaction hc) (fun _ => ?_)
    refine Acts.bind (Acts.skipCompaction hc) (fun _ => ?_)
    refine Acts.bind (Acts.skipCompaction hc) (fun _ => ?_)
    refine Acts.bind (Acts.skipCompaction hc) (fun _ => ?_)
    refine Acts.modifyDb (fun st h => ?_)
    simp only [hc]
    refine ⟨h, hc, fun _ => rfl, fun c hc' => ?_, fun _ c hc' => ?_, db.tables, db.version,
      db.mutableGeneration, db.wal, db.lastCompactionStatistics, by rw [← hc]⟩
    · rw [hc] at hc'
      cases hc'
    · rw [hc] at hc'
      cases hc'
  | some c =>
    -- a cause of the pending state is one of every state that `db` may have
    have honly : ∀ {C : Status → Prop}, (ρ.planned → c.Fresh → ∀ e, C e → Blocked F db c e) →
        ρ.planned → ∀ e, C e → ∀ c', some c = some c' → c'.Fresh → Blocked F db c' e := by
      intro C h hpl e he c' hc' hfresh
      obtain rfl := Option.some.inj hc'
      exact h hpl hfresh e he
    refine Acts.bind (Acts.errors (Acts.withCompaction hc (compactionOutputs_acts hF hc))
      (fun _ _ _ h => h.mono (honly (fun _ _ _ => .outputs)))) (fun _ => Acts.fix (fun d => ?_))
    refine Acts.know (fun _ h => h.2) (fun ⟨outputs, hd, hout⟩ => ?_)
    subst hd
    refine Acts.weaken _ ?_ (fun st h => h.1)
    refine Acts.bind (Acts.errors (Acts.withCompaction rfl (compactionCandidate_acts rfl
      (fun hun => (hout hun).1))) (fun _ _ _ h => h.mono (honly (fun _ hfresh e he => ?_))))
      (fun _ => Acts.fix (fun d => ?_))
    · rcases he.2 with he | he
      · exact .bytes ((hout hfresh.versionPublished).2 hfresh.published) he
      · exact .id he
    refine Acts.know (fun _ h => h.2) (fun ⟨v, stats, hd⟩ => ?_)
    subst hd
    refine Acts.weaken _ ?_ (fun st h => h.1)
    refine Acts.know (fun _ h => h.inv.contents) (fun hcontents => ?_)
    have hready : c.versionPublished = false → CandidateInv ρ _ { c with
        publishedOutputs := outputs, candidate := v, candidateReady := true, stats := stats } :=
      fun hun => (hcontents.pending _ rfl hun).ready rfl
    have hwritten : ρ.planned → c.versionPublished = false →
        Written db.format db.version db.tables { c with publishedOutputs := outputs } := by
      intro hpl hun
      have hw := hcontents.written hpl rfl hun (hready hun).outputs
      exact ⟨⟨hw.numbers, hw.first, hw.room, hw.build⟩, hw.outputs⟩
    refine Acts.bind (Acts.errors (Acts.withCompaction rfl (compactionVersion_acts hF rfl rfl))
      (fun _ _ _ h => h.mono (honly (fun hpl _ e he => ?_)))) (fun _ => Acts.fix (fun d => ?_))
    · exact .manifest (hwritten hpl he.1) ((hready he.1).planned hpl) he.2
    refine Acts.know (fun _ h => h.2) (fun hd => ?_)
    rcases hd with ⟨hpub, hd⟩ | ⟨hun, hd⟩
    · subst hd
      refine Acts.weaken _ ?_ (fun st h => h.1)
      refine (compactionRest_acts hF rfl hpub).conseq (fun _ _ h => h) ?_
        (fun _ _ _ h => h.mono (fun _ _ he => he.elim))
      rintro _ d st ⟨h, w, stats, rfl⟩
      refine ⟨h, rfl, fun hno => ?_, fun _ _ _ => ⟨rfl, rfl⟩, fun _ c' hc' hun => ?_,
        db.tables, db.version, db.mutableGeneration, w, stats, rfl⟩
      · rw [hc] at hno
        cases hno
      · rw [← Option.some.inj (hc.symm.trans hc'), show c.versionPublished = true from hpub] at hun
        cases hun
    · subst hd
      refine Acts.weaken _ ?_ (fun st h => h.1)
      refine (compactionRest_acts hF rfl (CompactionState.publish_published _ _)).conseq
        (fun _ _ h => h) ?_ (fun _ _ _ h => h.mono (fun _ _ he => he.elim))
      rintro _ d st ⟨h, w, stats, rfl⟩
      refine ⟨h, rfl, fun hno => ?_, fun c' hc' hpub => ?_, fun hpl c' hc' _ => ?_,
        _, _, _, w, stats, rfl⟩
      · rw [hc] at hno
        cases hno
      · rw [← Option.some.inj (hc.symm.trans hc'), show c.versionPublished = false from hun] at hpub
        cases hpub
      · obtain rfl := Option.some.inj (hc.symm.trans hc')
        exact ⟨outputs, hwritten hpl hun, (hready hun).planned hpl, rfl⟩

theorem continueCompaction_acts (hF : F.Lawful) :
    Acts q (Remains F σ.format ρ) (At db (Steady F ρ σ db)) (continueCompaction F)
      (fun _ d st => Steady F ρ σ d st ∧ CompactDone ρ db d) (Failed F ρ σ q) :=
  (continueCompaction_run hF).errors (fun _ _ _ h => h.1)

end

end MiniKV
